import StudyCode.CheckedLoop

/-!
# Tables filled row by row

A table of two dimensions with checked accesses, and the pair of nested loops
that writes its cells from left to right and from top to bottom. When each
cell is computed right from the cells before it, the whole table is right.
-/

namespace StudyCode.Checked

variable {α : Type*}

/-- A table on the stack. Its contents are arbitrary until they are written. -/
structure Grid (α : Type*) where
  /-- Number of rows. -/
  rows : ℕ
  /-- Number of columns. -/
  cols : ℕ
  /-- Contents by row and column. -/
  cell : ℕ → ℕ → α

namespace Grid

/-- The table as declared: as many rows and columns as positive sizes give. -/
def declare (rows cols : ℤ) (junk : ℕ → ℕ → α) : Grid α := ⟨rows.toNat,cols.toNat,junk⟩

/-- The index pair is inside of the table. -/
def Inside (g : Grid α) (i j : ℤ) : Prop := 0 ≤ i ∧ i < g.rows ∧ 0 ≤ j ∧ j < g.cols

instance (g : Grid α) (i j : ℤ) : Decidable (g.Inside i j) :=
  inferInstanceAs (Decidable (0 ≤ i ∧ i < g.rows ∧ 0 ≤ j ∧ j < g.cols))

/-- Checked read of one cell. -/
def read (g : Grid α) (i j : ℤ) : Option α :=
  if g.Inside i j then some (g.cell i.toNat j.toNat) else none

/-- The contents with one cell replaced. -/
def put (cell : ℕ → ℕ → α) (i j : ℕ) (v : α) : ℕ → ℕ → α := fun a b =>
  if a=i ∧ b=j then v else cell a b

/-- Checked write of one cell. -/
def write (g : Grid α) (i j : ℤ) (v : α) : Option (Grid α) :=
  if g.Inside i j then some ⟨g.rows,g.cols,put g.cell i.toNat j.toNat v⟩ else none

/-- Indices below the bounds are inside. -/
theorem inside_natCast {g : Grid α} {i j : ℕ} (hi : i < g.rows) (hj : j < g.cols) :
    g.Inside i j := by
  unfold Inside
  omega

/-- A cell inside is read. -/
theorem read_natCast {g : Grid α} {i j : ℕ} (hi : i < g.rows) (hj : j < g.cols) :
    g.read i j=some (g.cell i j) := by
  rw [read,if_pos (inside_natCast hi hj)]
  simp

/-- A cell inside is written. -/
theorem write_natCast {g : Grid α} {i j : ℕ} (hi : i < g.rows) (hj : j < g.cols) (v : α) :
    g.write i j v=some ⟨g.rows,g.cols,put g.cell i j v⟩ := by
  rw [write,if_pos (inside_natCast hi hj)]
  simp

/-! ## Filling -/

/-- Compute one cell from the table so far and write it. -/
def fillCell (value : ℤ → ℤ → Grid α → Option α) (i j : ℤ) (g : Grid α) : Option (Grid α) :=
  (value i j g).bind (g.write i j)

/-- The inner loop: one row from column lo on. -/
def fillRow (value : ℤ → ℤ → Grid α → Option α) (lo hi i : ℤ) (g : Grid α) : Option (Grid α) :=
  forUp (fillCell value i) lo hi g

/-- Both loops: rows i from `top` on, columns from `left` on. -/
def fill (value : ℤ → ℤ → Grid α → Option α) (top bottom left right : ℤ) (g : Grid α) :
    Option (Grid α) :=
  forUp (fillRow value left right) top bottom g

/-- The cells before row i and column j have the values of a function, those
of the columns left of the loop in all rows. -/
structure Filled (T : ℕ → ℕ → α) (rows cols left i j : ℕ) (g : Grid α) : Prop where
  /-- The loops do not change the number of rows. -/
  rows_eq : g.rows=rows
  /-- Nor the number of columns. -/
  cols_eq : g.cols=cols
  /-- The cells so far. -/
  done : ∀ a < rows,∀ b < cols,a < i ∨ a=i ∧ b < j ∨ b < left → g.cell a b=T a b

variable {value : ℤ → ℤ → Grid α → Option α} {T : ℕ → ℕ → α} {rows cols top left i j : ℕ}
  {g : Grid α}

/-- Filling one cell more of a row. -/
theorem Filled.cell (h : Filled T rows cols left i j g) (hi : i < rows) (hj : j < cols)
    (hv : value i j g=some (T i j)) :
    ∃ t,fillCell value i j g=some t ∧ Filled T rows cols left i (j+1) t := by
  have hw := write_natCast (g := g) (i := i) (j := j) (by rw [h.rows_eq]; exact hi)
    (by rw [h.cols_eq]; exact hj) (T i j)
  refine ⟨⟨g.rows,g.cols,put g.cell i j (T i j)⟩,by rw [fillCell,hv]; exact hw,
    h.rows_eq,h.cols_eq,?_⟩
  intro a ha b hb hd
  dsimp only [put]
  split
  · rename_i he
    rw [he.1,he.2]
  · exact h.done a ha b hb (by omega)

/-- A full row is followed by the next. -/
theorem Filled.nextRow (h : Filled T rows cols left i cols g) :
    Filled T rows cols left (i+1) left g :=
  ⟨h.rows_eq,h.cols_eq,fun a ha b hb hd => h.done a ha b hb (by omega)⟩

/-- Filling one row more. -/
theorem Filled.row (hleft : left ≤ cols) (h : Filled T rows cols left i left g) (hi : i < rows)
    (hv : ∀ j g,left ≤ j → j < cols → Filled T rows cols left i j g →
      value i j g=some (T i j)) :
    ∃ t,fillRow value left cols i g=some t ∧ Filled T rows cols left (i+1) left t := by
  obtain ⟨t,ht,hf⟩ := forUp_spec (Filled T rows cols left i) hleft h
    fun j g hl hj hd => hd.cell hi hj (hv j g hl hj hd)
  exact ⟨t,ht,hf.nextRow⟩

/-- The loops fill the table when each cell is right after those before it. -/
theorem fill_spec (htop : top ≤ rows) (hleft : left ≤ cols) (hr : g.rows=rows) (hc : g.cols=cols)
    (hbase : ∀ a < rows,∀ b < cols,a < top ∨ b < left → g.cell a b=T a b)
    (hv : ∀ i j g,top ≤ i → i < rows → left ≤ j → j < cols → Filled T rows cols left i j g →
      value i j g=some (T i j)) :
    ∃ t,fill value top rows left cols g=some t ∧ t.rows=rows ∧ t.cols=cols ∧
      ∀ a < rows,∀ b < cols,t.cell a b=T a b := by
  have hstart : Filled T rows cols left top left g :=
    ⟨hr,hc,fun a ha b hb hd => hbase a ha b hb (by omega)⟩
  obtain ⟨t,ht,hf⟩ := forUp_spec (fun i g => Filled T rows cols left i left g) htop hstart
    fun i g hi hlt hd => hd.row hleft hlt fun j g hl hj hj' => hv i j g hi hlt hl hj hj'
  exact ⟨t,ht,hf.rows_eq,hf.cols_eq,fun a ha b hb => hf.done a ha b hb (.inl ha)⟩

end Grid

end StudyCode.Checked
