import SymbolicAlgebra.Layout.OfExpr
import SymbolicAlgebra.Proofs.Congruence

/-! Grids are rectangles with the baseline inside, and a composed grid shows each of its parts at a
place of its own.

Every composition is made of two steps, rows put below rows and columns put beside columns, and both
keep track of what stands where. -/
namespace SymbolicAlgebra

/-- The character in a row and a column of some rows. -/
def cellIn? (rows : List (List Char)) (row col : Nat) : Option Char := rows[row]?.bind (·[col]?)

namespace Grid

def cell? (g : Grid) (row col : Nat) : Option Char := cellIn? g.rows row col

/-- At least one row, all of one width, and one of them the baseline. -/
structure WellFormed (g : Grid) : Prop where
  nonempty : 0 < g.height
  rectangular : ∀ row ∈ g.rows, row.length = g.width
  baseline_lt : g.baseline < g.height

/-- The grids that texts, the four compositions and the layouts of expressions build. -/
inductive Drawn : Grid → Prop
  | ofText (text : String) : Drawn (ofText text)
  | beside {parts : List Grid} (each : ∀ g ∈ parts, Drawn g) : Drawn (beside parts)
  | fraction {num den : Grid} (top : Drawn num) (bottom : Drawn den) : Drawn (fraction num den)
  | superscript {base exponent : Grid} (low : Drawn base) (high : Drawn exponent) :
    Drawn (superscript base exponent)
  | parenthesized {g : Grid} (inner : Drawn g) : Drawn g.parenthesized
  | layout (e : Expr) : Drawn e.layout

/-- A grid with the row and the column of its first cell in a larger one. -/
structure Placement where
  grid : Grid
  row : Nat
  col : Nat

namespace Placement

def Covers (p : Placement) (row col : Nat) : Prop :=
  (p.row ≤ row ∧ row < p.row + p.grid.height) ∧ p.col ≤ col ∧ col < p.col + p.grid.width

def Disjoint (p q : Placement) : Prop := ∀ row col, ¬ (p.Covers row col ∧ q.Covers row col)

def lower (n : Nat) (p : Placement) : Placement := { p with row := n + p.row }

def indent (n : Nat) (p : Placement) : Placement := { p with col := n + p.col }

/-- The grid lies within some rows, which show it cell for cell. -/
structure ShownIn (p : Placement) (rows : List (List Char)) (height width : Nat) : Prop where
  bottom : p.row + p.grid.height ≤ height
  right : p.col + p.grid.width ≤ width
  cells : ∀ r < p.grid.height, ∀ c < p.grid.width, ∃ char, p.grid.cell? r c = some char ∧
    cellIn? rows (p.row + r) (p.col + c) = some char

theorem covers_lower {p : Placement} {n row col : Nat} :
    (p.lower n).Covers row col ↔ n ≤ row ∧ p.Covers (row - n) col := by
  simp only [Covers, lower]
  omega

theorem covers_indent {p : Placement} {n row col : Nat} :
    (p.indent n).Covers row col ↔ n ≤ col ∧ p.Covers row (col - n) := by
  simp only [Covers, indent]
  omega

theorem ShownIn.lt_of_covers {p : Placement} {rows : List (List Char)} {h w row col : Nat}
    (shown : p.ShownIn rows h w) (covers : p.Covers row col) : row < h ∧ col < w := by
  have := shown.bottom
  have := shown.right
  simp only [Covers] at covers
  omega

end Placement

/-- A rectangle of rows that shows the parts in disjoint places, and `rest` in all other cells. -/
structure Shows (rows : List (List Char)) (h w : Nat) (parts : List Placement)
    (rest : Nat → Nat → Char) : Prop where
  height : rows.length = h
  width : ∀ row ∈ rows, row.length = w
  shown : ∀ p ∈ parts, p.ShownIn rows h w
  disjoint : parts.Pairwise Placement.Disjoint
  others : ∀ r < h, ∀ c < w, (∀ p ∈ parts, ¬ p.Covers r c) →
    cellIn? rows r c = some (rest r c)

/-- A grid composed of parts. -/
def Composes (g : Grid) (parts : List Placement) (rest : Nat → Nat → Char) : Prop :=
  Shows g.rows g.height g.width parts rest

/-! ## Cells of joined rows -/

theorem cellIn?_append_left {a b : List (List Char)} {r : Nat} (h : r < a.length) (c : Nat) :
    cellIn? (a ++ b) r c = cellIn? a r c := by
  rw [cellIn?, List.getElem?_append_left h, cellIn?]

theorem cellIn?_append_right {a b : List (List Char)} {r : Nat} (h : a.length ≤ r) (c : Nat) :
    cellIn? (a ++ b) r c = cellIn? b (r - a.length) c := by
  rw [cellIn?, List.getElem?_append_right h, cellIn?]

theorem cellIn?_zipWith {a b : List (List Char)} {r : Nat} (left : r < a.length)
    (right : r < b.length) (c : Nat) :
    cellIn? (List.zipWith (· ++ ·) a b) r c =
      if c < a[r].length then cellIn? a r c else cellIn? b r (c - a[r].length) := by
  have row : (List.zipWith (· ++ ·) a b)[r]? = some (a[r] ++ b[r]) := by
    simp [left, right]
  simp only [cellIn?, row, List.getElem?_eq_getElem left, List.getElem?_eq_getElem right,
    Option.bind_some, List.getElem?_append]

theorem cellIn?_replicate {h w r c : Nat} (row : r < h) (col : c < w) (char : Char) :
    cellIn? (List.replicate h (List.replicate w char)) r c = some char := by
  simp [cellIn?, row, col]

theorem exists_cellIn? {rows : List (List Char)} {w r c : Nat} (r_lt : r < rows.length)
    (width : ∀ row ∈ rows, row.length = w) (c_lt : c < w) : ∃ char, cellIn? rows r c = some char := by
  have length := width rows[r] (List.getElem_mem r_lt)
  exact ⟨rows[r][c], by simp [cellIn?, r_lt, length, c_lt]⟩

/-! ## The two steps of a composition -/

namespace Shows

variable {a b : List (List Char)} {h k w v : Nat} {ps qs : List Placement}
  {f g : Nat → Nat → Char}

theorem congr_rest (shows : Shows a h w ps f) (same : ∀ r < h, ∀ c < w, f r c = g r c) :
    Shows a h w ps g :=
  { shows with
    others := fun r row c col free => by
      rw [← same r row c col]
      exact shows.others r row c col free }

theorem filled (h w : Nat) (char : Char) :
    Shows (List.replicate h (List.replicate w char)) h w [] fun _ _ => char where
  height := List.length_replicate
  width row member := by rw [List.eq_of_mem_replicate member, List.length_replicate]
  shown _ member := nomatch member
  disjoint := List.Pairwise.nil
  others _ row _ col _ := cellIn?_replicate row col char

theorem whole {g : Grid} (wellFormed : g.WellFormed) (rest : Nat → Nat → Char) :
    Shows g.rows g.height g.width [⟨g, 0, 0⟩] rest where
  height := rfl
  width := wellFormed.rectangular
  shown p member := by
    cases List.mem_singleton.mp member
    refine ⟨by simp, by simp, fun r row c col => ?_⟩
    obtain ⟨char, found⟩ := exists_cellIn? row wellFormed.rectangular col
    exact ⟨char, found, by simpa using found⟩
  disjoint := List.pairwise_singleton _ _
  others r row c col free :=
    absurd (by simpa [Placement.Covers] using ⟨row, col⟩) (free _ List.mem_cons_self)

/-- Rows put below others. -/
theorem below (top : Shows a h w ps f) (bottom : Shows b k w qs g) :
    Shows (a ++ b) (h + k) w (ps ++ qs.map (Placement.lower h))
      fun r c => if r < h then f r c else g (r - h) c where
  height := by rw [List.length_append, top.height, bottom.height]
  width row member := (List.mem_append.mp member).elim (top.width row) (bottom.width row)
  shown p member := by
    rcases List.mem_append.mp member with upper | lower
    · have shown := top.shown p upper
      have := shown.bottom
      refine ⟨by omega, shown.right, fun r row c col => ?_⟩
      rw [cellIn?_append_left (by rw [top.height]; omega)]
      exact shown.cells r row c col
    · obtain ⟨q, inside, rfl⟩ := List.mem_map.mp lower
      have shown := bottom.shown q inside
      have := shown.bottom
      refine ⟨by simp only [Placement.lower]; omega, shown.right, fun r row c col => ?_⟩
      have shift : h + q.row + r - a.length = q.row + r := by rw [top.height]; omega
      simp only [Placement.lower] at row col ⊢
      rw [cellIn?_append_right (by rw [top.height]; omega), shift]
      exact shown.cells r row c col
  disjoint := by
    refine List.pairwise_append.mpr ⟨top.disjoint, ?_, fun p upper q lower row col both => ?_⟩
    · refine List.pairwise_map.mpr (bottom.disjoint.imp fun apart row col both => ?_)
      rw [Placement.covers_lower, Placement.covers_lower] at both
      exact apart _ _ ⟨both.1.2, both.2.2⟩
    · obtain ⟨q, -, rfl⟩ := List.mem_map.mp lower
      have above := (top.shown p upper).lt_of_covers both.1
      have under := (Placement.covers_lower.mp both.2).1
      omega
  others r row c col free := by
    by_cases upper : r < h
    · rw [cellIn?_append_left (by rw [top.height]; omega), if_pos upper]
      exact top.others r upper c col fun p member => free p (List.mem_append_left _ member)
    · rw [cellIn?_append_right (by rw [top.height]; omega), if_neg upper, top.height]
      refine bottom.others _ (by omega) c col fun p member covers => ?_
      exact free _ (List.mem_append_right _ (List.mem_map_of_mem member))
        (Placement.covers_lower.mpr ⟨by omega, covers⟩)

/-- Columns put to the right of others. -/
theorem beside (left : Shows a h w ps f) (right : Shows b h v qs g) :
    Shows (List.zipWith (· ++ ·) a b) h (w + v) (ps ++ qs.map (Placement.indent w))
      fun r c => if c < w then f r c else g r (c - w) := by
  have cell {r : Nat} (row : r < h) (c : Nat) : cellIn? (List.zipWith (· ++ ·) a b) r c =
      if c < w then cellIn? a r c else cellIn? b r (c - w) := by
    have inside : r < a.length := left.height ▸ row
    rw [cellIn?_zipWith inside (right.height ▸ row), left.width _ (List.getElem_mem inside)]
  constructor
  case height => rw [List.length_zipWith, left.height, right.height, Nat.min_self]
  case width =>
    intro row member
    obtain ⟨i, inside, rfl⟩ := List.mem_iff_getElem.mp member
    rw [List.getElem_zipWith, List.length_append, left.width _ (List.getElem_mem _),
      right.width _ (List.getElem_mem _)]
  case shown =>
    intro p member
    rcases List.mem_append.mp member with near | far
    · have shown := left.shown p near
      have := shown.bottom
      have := shown.right
      refine ⟨shown.bottom, by omega, fun r row c col => ?_⟩
      rw [cell (by omega), if_pos (by omega)]
      exact shown.cells r row c col
    · obtain ⟨q, inside, rfl⟩ := List.mem_map.mp far
      have shown := right.shown q inside
      have := shown.bottom
      have := shown.right
      refine ⟨shown.bottom, by simp only [Placement.indent]; omega, fun r row c col => ?_⟩
      simp only [Placement.indent] at row col ⊢
      have shift : w + q.col + c - w = q.col + c := by omega
      rw [cell (by omega), if_neg (by omega), shift]
      exact shown.cells r row c col
  case disjoint =>
    refine List.pairwise_append.mpr ⟨left.disjoint, ?_, fun p near q far row col both => ?_⟩
    · refine List.pairwise_map.mpr (right.disjoint.imp fun apart row col both => ?_)
      rw [Placement.covers_indent, Placement.covers_indent] at both
      exact apart _ _ ⟨both.1.2, both.2.2⟩
    · obtain ⟨q, -, rfl⟩ := List.mem_map.mp far
      have before := (left.shown p near).lt_of_covers both.1
      have after := (Placement.covers_indent.mp both.2).1
      omega
  case others =>
    intro r row c col free
    rw [cell row]
    by_cases near : c < w
    · rw [if_pos near, if_pos near]
      exact left.others r row c near fun p member => free p (List.mem_append_left _ member)
    · rw [if_neg near, if_neg near]
      refine right.others r row _ (by omega) fun p member covers => ?_
      exact free _ (List.mem_append_right _ (List.mem_map_of_mem member))
        (Placement.covers_indent.mpr ⟨by omega, covers⟩)

/-- The width of a grid is that of its rows, if it has any. -/
theorem width_eq {g : Grid} {rest : Nat → Nat → Char} (shows : Shows g.rows h w ps rest)
    (nonempty : 0 < h) : g.width = w := by
  unfold Grid.width
  split
  · rename_i row rows same
    exact shows.width row (by rw [same]; exact List.mem_cons_self)
  · rename_i empty
    have := shows.height
    rw [empty, List.length_nil] at this
    omega

theorem composes {g : Grid} (shows : Shows g.rows h w ps f) (nonempty : 0 < h) :
    g.Composes ps f := by
  have height : g.height = h := shows.height
  rw [Composes, shows.width_eq nonempty, height]
  exact shows

end Shows

theorem Composes.wellFormed {g : Grid} {ps : List Placement} {rest : Nat → Nat → Char}
    (composes : g.Composes ps rest) (baseline : g.baseline < g.height) : g.WellFormed :=
  ⟨Nat.lt_of_le_of_lt (Nat.zero_le _) baseline, composes.width, baseline⟩

/-! ## Padding -/

/-- Blank in every cell. -/
def blanks : Nat → Nat → Char := fun _ _ => ' '

theorem zipWith_replicate_append (row : List Char) (rows : List (List Char)) :
    List.zipWith (· ++ ·) (List.replicate rows.length row) rows = rows.map (row ++ ·) := by
  induction rows with
  | nil => rfl
  | cons first rows ih =>
    rw [List.length_cons, List.replicate_succ, List.zipWith_cons_cons, ih, List.map_cons]

theorem zipWith_append_replicate (rows : List (List Char)) (row : List Char) :
    List.zipWith (· ++ ·) rows (List.replicate rows.length row) = rows.map (· ++ row) := by
  induction rows with
  | nil => rfl
  | cons first rows ih =>
    rw [List.length_cons, List.replicate_succ, List.zipWith_cons_cons, ih, List.map_cons]

namespace Shows

variable {rows : List (List Char)} {h w : Nat} {ps : List Placement}

theorem indented (shows : Shows rows h w ps blanks) (n : Nat) :
    Shows (rows.map (blankRow n ++ ·)) h (n + w) (ps.map (Placement.indent n)) blanks := by
  have joined := (filled h n ' ').beside shows
  rw [← shows.height, ← blankRow, zipWith_replicate_append, shows.height] at joined
  exact joined.congr_rest fun r _ c _ => ite_self _

theorem extended (shows : Shows rows h w ps blanks) (n : Nat) :
    Shows (rows.map (· ++ blankRow n)) h (w + n) ps blanks := by
  have joined := shows.beside (filled h n ' ')
  rw [← shows.height, ← blankRow, zipWith_append_replicate, shows.height, List.map_nil,
    List.append_nil] at joined
  exact joined.congr_rest fun r _ c _ => ite_self _

variable {g : Grid}

theorem centred (wellFormed : g.WellFormed) (room : g.width ≤ w) :
    Shows (g.rows.map (centreRow w)) g.height w [⟨g, 0, (w - g.width) / 2⟩] blanks := by
  have shows := ((whole wellFormed blanks).indented ((w - g.width) / 2)).extended
    (w - g.width - (w - g.width) / 2)
  have columns : (w - g.width) / 2 + g.width + (w - g.width - (w - g.width) / 2) = w := by omega
  have rows : g.rows.map (centreRow w) = (g.rows.map (blankRow ((w - g.width) / 2) ++ ·)).map
      (· ++ blankRow (w - g.width - (w - g.width) / 2)) := by
    rw [List.map_map]
    refine List.map_congr_left fun row member => ?_
    rw [centreRow, wellFormed.rectangular row member, Function.comp_apply]
  rw [rows]
  rw [columns] at shows
  exact shows

theorem padded (wellFormed : g.WellFormed) (above below : Nat) :
    Shows (g.padVertically above below).rows (above + g.height + below) g.width [⟨g, above, 0⟩]
      blanks := by
  have shows := ((filled above g.width ' ').below (whole wellFormed blanks)).below
    (filled below g.width ' ')
  refine shows.congr_rest fun r _ c _ => ?_
  simp only [blanks, ite_self]

end Shows

/-! ## Grids beside grids -/

theorem le_maxOf {n : Nat} {xs : List Nat} (member : n ∈ xs) : n ≤ maxOf xs := by
  have grows (xs : List Nat) (m : Nat) : m ≤ xs.foldl max m ∧ ∀ n ∈ xs, n ≤ xs.foldl max m := by
    induction xs generalizing m with
    | nil => simp
    | cons x xs ih =>
      obtain ⟨start, each⟩ := ih (max m x)
      refine ⟨by simp only [List.foldl_cons]; omega, fun n member => ?_⟩
      rcases List.mem_cons.mp member with rfl | later
      · simp only [List.foldl_cons]
        omega
      · exact each n later
  exact (grows xs 0).2 n member

/-- Each grid right of those before it and with its baseline in the given row. -/
def placedBeside (baseline : Nat) : List Grid → List Placement
  | [] => []
  | g :: gs =>
    ⟨g, baseline - g.baseline, 0⟩ :: (placedBeside baseline gs).map (Placement.indent g.width)

theorem map_grid_placedBeside (baseline : Nat) (gs : List Grid) :
    (placedBeside baseline gs).map Placement.grid = gs := by
  induction gs with
  | nil => rfl
  | cons g gs ih =>
    rw [placedBeside, List.map_cons, List.map_map]
    exact congrArg (g :: ·) ih

theorem baseline_of_placedBeside {baseline : Nat} {gs : List Grid}
    (room : ∀ g ∈ gs, g.baseline ≤ baseline) :
    ∀ p ∈ placedBeside baseline gs, p.row + p.grid.baseline = baseline := by
  induction gs with
  | nil => exact fun _ member => nomatch member
  | cons g gs ih =>
    intro p member
    rcases List.mem_cons.mp member with rfl | later
    · exact Nat.sub_add_cancel (room g List.mem_cons_self)
    · obtain ⟨q, inside, rfl⟩ := List.mem_map.mp later
      exact ih (fun g member => room g (List.mem_cons_of_mem _ member)) q inside

/-- Every grid reaches from its baseline as far up and down as there is room. -/
theorem shows_joinRows {above below : Nat} {gs : List Grid} (each : ∀ g ∈ gs, g.WellFormed)
    (up : ∀ g ∈ gs, g.baseline ≤ above) (down : ∀ g ∈ gs, g.depth ≤ below) :
    Shows (joinRows (above + below + 1)
        (gs.map fun g => g.padVertically (above - g.baseline) (below - g.depth)))
      (above + below + 1) (gs.map width).sum (placedBeside above gs) blanks := by
  induction gs with
  | nil => exact Shows.filled _ 0 ' '
  | cons g gs ih =>
    have first := Shows.padded (each g List.mem_cons_self) (above - g.baseline) (below - g.depth)
    have rows : above - g.baseline + g.height + (below - g.depth) = above + below + 1 := by
      have := (each g List.mem_cons_self).baseline_lt
      have := up g List.mem_cons_self
      have := down g List.mem_cons_self
      simp only [depth] at this ⊢
      omega
    rw [rows] at first
    have joined := first.beside (ih (fun g member => each g (List.mem_cons_of_mem _ member))
      (fun g member => up g (List.mem_cons_of_mem _ member))
      fun g member => down g (List.mem_cons_of_mem _ member))
    exact joined.congr_rest fun r _ c _ => ite_self _

variable {parts : List Grid}

theorem baseline_le_beside (parts : List Grid) :
    ∀ g ∈ parts, g.baseline ≤ (beside parts).baseline :=
  fun _ member => le_maxOf (List.mem_map_of_mem member)

theorem shows_beside (each : ∀ g ∈ parts, g.WellFormed) :
    Shows (beside parts).rows ((beside parts).baseline + maxOf (parts.map depth) + 1)
      (parts.map width).sum (placedBeside (beside parts).baseline parts) blanks :=
  shows_joinRows each (baseline_le_beside parts) fun _ member =>
    le_maxOf (List.mem_map_of_mem member)

theorem composes_beside (each : ∀ g ∈ parts, g.WellFormed) :
    (beside parts).Composes (placedBeside (beside parts).baseline parts) blanks :=
  (shows_beside each).composes (Nat.succ_pos _)

theorem WellFormed.beside (each : ∀ g ∈ parts, g.WellFormed) : (beside parts).WellFormed := by
  refine (composes_beside each).wellFormed ?_
  have height : (Grid.beside parts).height = _ := (shows_beside each).height
  omega

/-! ## Fractions, powers and brackets -/

/-- The rule of a fraction with a numerator of the given height, and blanks elsewhere. -/
def ruleIn (height : Nat) : Nat → Nat → Char := fun row _ => if row = height then '-' else ' '

/-- Numerator and denominator in the middle above and below the rule. -/
def placedInFraction (num den : Grid) : List Placement :=
  let width := max num.width den.width + 2
  [⟨num, 0, (width - num.width) / 2⟩, ⟨den, num.height + 1, (width - den.width) / 2⟩]

/-- The exponent starts where the base ends, and the base below the exponent. -/
def placedInPower (base exponent : Grid) : List Placement :=
  [⟨exponent, 0, base.width⟩, ⟨base, exponent.height, 0⟩]

variable {num den base exponent g : Grid}

theorem composes_fraction (top : num.WellFormed) (bottom : den.WellFormed) :
    (fraction num den).Composes (placedInFraction num den) (ruleIn num.height) := by
  let width := max num.width den.width + 2
  have upper : Shows _ num.height width _ blanks := Shows.centred top (by omega)
  have lower : Shows _ den.height width _ blanks := Shows.centred bottom (by omega)
  have shows := (upper.below (Shows.filled 1 width '-')).below lower
  refine (shows.congr_rest fun r _ c _ => ?_).composes (by omega)
  simp only [ruleIn, blanks]
  rcases Nat.lt_trichotomy r num.height with above | level | under
  · rw [if_pos (by omega), if_pos above, if_neg (by omega)]
  · rw [if_pos (by omega), if_neg (by omega), if_pos level]
  · rw [if_neg (by omega), if_neg (by omega)]

theorem composes_superscript (low : base.WellFormed) (high : exponent.WellFormed) :
    (superscript base exponent).Composes (placedInPower base exponent) blanks := by
  have upper := (Shows.whole high blanks).indented base.width
  have lower := (Shows.whole low blanks).extended exponent.width
  have shows := upper.below lower
  have nonempty := high.nonempty
  exact (shows.congr_rest fun r _ c _ => ite_self _).composes (by omega)

theorem WellFormed.ofText (text : String) : (ofText text).WellFormed :=
  ⟨Nat.one_pos, fun row member => by rw [List.mem_singleton.mp member]; rfl, Nat.one_pos⟩

theorem WellFormed.fraction (top : num.WellFormed) (bottom : den.WellFormed) :
    (fraction num den).WellFormed := by
  refine (composes_fraction top bottom).wellFormed ?_
  simp only [Grid.fraction, Grid.height, List.length_append, List.length_map, List.length_singleton]
  omega

theorem WellFormed.superscript (low : base.WellFormed) (high : exponent.WellFormed) :
    (superscript base exponent).WellFormed := by
  refine (composes_superscript low high).wellFormed ?_
  have := low.baseline_lt
  simp only [Grid.superscript, Grid.height, List.length_append, List.length_map] at this ⊢
  omega

theorem WellFormed.column (top middle bottom : Char) {height baseline : Nat} (tall : 2 ≤ height)
    (inside : baseline < height) :
    (Grid.column top middle bottom height baseline).WellFormed := by
  have rows : (Grid.column top middle bottom height baseline).height = height := by
    simp only [Grid.column, Grid.height, List.length_append, List.length_replicate,
      List.length_singleton]
    omega
  refine ⟨by omega, fun row member => ?_, by rw [rows]; exact inside⟩
  simp only [Grid.column, List.mem_append, List.mem_singleton, List.mem_replicate] at member
  rcases member with (rfl | ⟨-, rfl⟩) | rfl <;> rfl

theorem WellFormed.parenthesized (inner : g.WellFormed) : g.parenthesized.WellFormed := by
  unfold Grid.parenthesized
  split
  · refine .beside ?_
    simp [WellFormed.ofText, inner]
  · rename_i tall
    have bracket (top middle bottom : Char) :
        (Grid.column top middle bottom g.height g.baseline).WellFormed :=
      .column top middle bottom (by omega) inner.baseline_lt
    refine .beside ?_
    simp [bracket, inner]

/-! ## Layouts of expressions -/

variable {grids : List Grid}

theorem WellFormed.operand (brackets : Bool) (inner : g.WellFormed) :
    (operand brackets g).WellFormed := by
  unfold Grid.operand
  split
  · exact inner.parenthesized
  · exact inner

theorem WellFormed.operands (brackets : List Bool) (each : ∀ g ∈ grids, g.WellFormed) :
    ∀ g ∈ List.zipWith Grid.operand brackets grids, g.WellFormed := by
  induction grids generalizing brackets with
  | nil => simp
  | cons g grids ih =>
    cases brackets with
    | nil => simp
    | cons b brackets =>
      obtain ⟨first, others⟩ := List.forall_mem_cons.mp each
      exact List.forall_mem_cons.mpr ⟨first.operand b, ih brackets others⟩

theorem WellFormed.separated (text : String) (each : ∀ g ∈ grids, g.WellFormed) :
    (separated text grids).WellFormed := by
  refine .beside ?_
  fun_induction grids.intersperse (Grid.ofText text) with
  | case1 => exact each
  | case2 => exact each
  | case3 g grids _ ih =>
    obtain ⟨first, others⟩ := List.forall_mem_cons.mp each
    exact List.forall_mem_cons.mpr ⟨first, List.forall_mem_cons.mpr ⟨.ofText text, ih others⟩⟩

open SymbolicAlgebra.Expr in
theorem wellFormed_productGrid (operands : List Expr) (each : ∀ g ∈ grids, g.WellFormed) :
    (productGrid operands grids).WellFormed := by
  unfold productGrid
  split
  · refine .beside ?_
    simp_all [WellFormed.ofText]
  · split
    · refine .beside ?_
      simp_all [WellFormed.ofText, WellFormed.operand]
    · exact .separated _ (WellFormed.operands _ each)

open SymbolicAlgebra.Expr in
theorem wellFormed_nodeGrid (op : Operator) (operands : List Expr)
    (each : ∀ g ∈ grids, g.WellFormed) : (nodeGrid op operands grids).WellFormed := by
  unfold nodeGrid
  split
  · exact .separated _ (WellFormed.operands _ each)
  · refine .beside ?_
    simp_all [WellFormed.ofText, WellFormed.operand]
  · exact wellFormed_productGrid operands each
  · exact .fraction (each _ (by simp)) (each _ (by simp))
  · rename_i f g
    have exponent : g.WellFormed := each _ (by simp)
    refine .superscript (.operand _ (each _ (by simp))) ?_
    split
    · exact exponent.parenthesized
    · exact exponent
  · exact .separated _ (WellFormed.operands _ each)

open SymbolicAlgebra.Expr in
theorem wellFormed_callGrid (f : NamedFunction) (each : ∀ g ∈ grids, g.WellFormed) :
    (callGrid f grids).WellFormed := by
  have args : (if grids.isEmpty then .ofText "" else Grid.separated ", " grids).WellFormed := by
    split
    · exact .ofText ""
    · exact .separated ", " each
  exact .beside (List.forall_mem_cons.mpr
    ⟨.ofText _, List.forall_mem_singleton.mpr args.parenthesized⟩)

theorem layoutAll_eq_map (xs : List Expr) : Expr.layoutAll xs = xs.map Expr.layout := by
  induction xs with
  | nil => rfl
  | cons x xs ih => rw [Expr.layoutAll, ih, List.map_cons]

theorem wellFormed_layout (e : Expr) : e.layout.WellFormed := by
  induction e with
  | number _ | complex _ | ident _ => exact .ofText _
  | call f xs ih =>
    rw [Expr.layout, layoutAll_eq_map]
    exact wellFormed_callGrid f (List.forall_mem_map.mpr ih)
  | node op xs ih =>
    rw [Expr.layout, layoutAll_eq_map]
    exact wellFormed_nodeGrid op xs (List.forall_mem_map.mpr ih)

/-- Whatever is drawn is a rectangle with its baseline inside. -/
theorem Drawn.wellFormed {g : Grid} (drawn : Drawn g) : g.WellFormed := by
  induction drawn with
  | ofText text => exact .ofText text
  | beside _ ih => exact .beside ih
  | fraction _ _ top bottom => exact .fraction top bottom
  | superscript _ _ low high => exact .superscript low high
  | parenthesized _ inner => exact inner.parenthesized
  | layout e => exact wellFormed_layout e

/-- Every drawn grid is a rectangle with its baseline inside, and every composition of drawn grids
shows each of them whole, inside and apart from the others, with blanks and the rule of a fraction as
all the rest; grids side by side have their baselines in one row. -/
theorem drawn_shows_its_parts :
    (∀ g, Drawn g →
      0 < g.height ∧ (∀ row ∈ g.rows, row.length = g.width) ∧ g.baseline < g.height) ∧
    (∀ parts, (∀ g ∈ parts, Drawn g) →
      (beside parts).Composes (placedBeside (beside parts).baseline parts) blanks ∧
      (placedBeside (beside parts).baseline parts).map Placement.grid = parts ∧
      ∀ p ∈ placedBeside (beside parts).baseline parts,
        p.row + p.grid.baseline = (beside parts).baseline) ∧
    (∀ num den, Drawn num → Drawn den →
      (fraction num den).Composes (placedInFraction num den) (ruleIn num.height)) ∧
    ∀ base exponent, Drawn base → Drawn exponent →
      (superscript base exponent).Composes (placedInPower base exponent) blanks := by
  refine ⟨fun g drawn => ?_, fun parts drawn => ?_, fun num den top bottom => ?_,
    fun base exponent low high => ?_⟩
  · have wellFormed := drawn.wellFormed
    exact ⟨wellFormed.nonempty, wellFormed.rectangular, wellFormed.baseline_lt⟩
  · exact ⟨composes_beside fun g member => (drawn g member).wellFormed,
      map_grid_placedBeside _ parts, baseline_of_placedBeside (baseline_le_beside parts)⟩
  · exact composes_fraction top.wellFormed bottom.wellFormed
  · exact composes_superscript low.wellFormed high.wellFormed

/-- `x` squared beside `a` over `bc`: the base of the power stands in the row of the rule. -/
theorem drawn_shows_its_parts_of_power_and_quotient :
    let power := superscript (ofText "x") (ofText "2")
    let quotient := fraction (ofText "a") (ofText "bc")
    Drawn power ∧ Drawn quotient ∧
      (beside [power, quotient]).rows = [" 2 a  ", "x ----", "   bc "].map String.toList ∧
      (beside [power, quotient]).Composes [⟨power, 0, 0⟩, ⟨quotient, 0, 2⟩] blanks := by
  have power : Drawn (superscript (ofText "x") (ofText "2")) := .superscript (.ofText _) (.ofText _)
  have quotient : Drawn (fraction (ofText "a") (ofText "bc")) := .fraction (.ofText _) (.ofText _)
  have both := List.forall_mem_cons.mpr ⟨power, List.forall_mem_singleton.mpr quotient⟩
  exact ⟨power, quotient, by decide +kernel, (drawn_shows_its_parts.2.1 _ both).1⟩

end Grid

end SymbolicAlgebra
