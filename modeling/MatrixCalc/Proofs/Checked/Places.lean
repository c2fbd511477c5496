import MatrixCalc.Mat.Transform
import MatrixCalc.Proofs.Checked.Text

/-!
# Vectors and matrices by indices, with refusals

Storage has four places, so an index from four on is refused, for reading and for writing. The
operations on vectors and matrices run over the indices below a size. All sizes are at most four:
no index is refused, and the results are those of the operations on places.
-/
namespace MatrixCalc.Checked

variable {α : Type}

def place? (i : Nat) : Option (Fin 4) := if h : i < 4 then some ⟨i, h⟩ else none

@[simp] theorem place?_val (i : Fin 4) : place? i.val = some i := dif_pos i.isLt

def get? (q : Quad α) (i : Nat) : Option α := (place? i).map q.get

@[simp] theorem get?_val (q : Quad α) (i : Fin 4) : get? q i.val = some (q.get i) := by
  rw [get?, place?_val, Option.map_some]

def put? (q : Quad α) (i : Nat) (x : α) : Option (Quad α) :=
  (place? i).map fun p => .ofFn fun i => if i = p then x else q.get i

@[simp] theorem put?_val (q : Quad α) (p : Fin 4) (x : α) :
    put? q p.val x = some (.ofFn fun i => if i = p then x else q.get i) := by
  rw [put?, place?_val, Option.map_some]

/-- Writes some places, one after the other. -/
def fill? : List Nat → (Nat → Option α) → Quad α → Option (Quad α)
  | [], _, q => some q
  | i :: places, f, q => do fill? places f (← put? q i (← f i))

theorem fill?_eq {places : List Nat} (hplaces : ∀ i ∈ places, i < 4) {f : Nat → Option α}
    {g : Fin 4 → α} (h : ∀ i : Fin 4, i.val ∈ places → f i.val = some (g i)) (q : Quad α) :
    fill? places f q = some (.ofFn fun i => if i.val ∈ places then g i else q.get i) := by
  induction places generalizing q with
  | nil =>
    rw [fill?]
    exact congrArg some (Quad.ext_get fun i => by simp)
  | cons a places ih =>
    obtain ⟨ha, hbelow⟩ := List.forall_mem_cons.1 hplaces
    obtain ⟨p, rfl⟩ : ∃ p : Fin 4, p.val = a := ⟨⟨a, ha⟩, rfl⟩
    rw [fill?, h p (List.mem_cons_self ..)]
    simp only [Option.bind_eq_bind, Option.bind_some, put?_val]
    rw [ih hbelow fun i hi => h i (List.mem_cons_of_mem _ hi)]
    refine congrArg some (Quad.ofFn_congr fun i => ?_)
    rw [Quad.get_ofFn]
    by_cases hi : i.val ∈ places
    · rw [if_pos hi, if_pos (List.mem_cons_of_mem _ hi)]
    · by_cases hp : i = p
      · rw [if_neg hi, if_pos hp, if_pos (hp ▸ List.mem_cons_self ..), hp]
      · have hne : i.val ∉ p.val :: places := by
          intro hmem
          rcases List.mem_cons.1 hmem with heq | hmem
          · exact hp (Fin.ext heq)
          · exact hi hmem
        rw [if_neg hi, if_neg hp, if_neg hne]

/-- The indices below a size. -/
def below (d : Dim) : List Nat := List.range d.toNat

theorem lt_four_of_mem_below {d : Dim} : ∀ i ∈ below d, i < 4 :=
  fun _ hi => Nat.lt_of_lt_of_le (List.mem_range.1 hi) d.toNat_le_four

@[simp] theorem val_mem_below {d : Dim} {i : Fin 4} : i.val ∈ below d ↔ d.Active i :=
  List.mem_range

theorem below_eq (d : Dim) : below d = d.indices.map Fin.val := by cases d <;> rfl

/-- The sum over the indices below a size. -/
def sum [Add α] (d : Dim) (f : Nat → Option α) : Option α :=
  match d with
  | .two => do return (← f 0) + (← f 1)
  | .three => do return (← f 0) + (← f 1) + (← f 2)
  | .four => do return (← f 0) + (← f 1) + (← f 2) + (← f 3)

theorem sum_eq [Add α] {d : Dim} {f : Nat → Option α} {g : Fin 4 → α}
    (h : ∀ i : Fin 4, f i.val = some (g i)) : sum d f = some (d.sum g) := by
  have h0 : f 0 = some (g 0) := h 0
  have h1 : f 1 = some (g 1) := h 1
  have h2 : f 2 = some (g 2) := h 2
  have h3 : f 3 = some (g 3) := h 3
  cases d with
  | two =>
    rw [sum, h0, h1]
    rfl
  | three =>
    rw [sum, h0, h1, h2]
    rfl
  | four =>
    rw [sum, h0, h1, h2, h3]
    rfl

namespace Vec

def get (v : Vec α) (i : Nat) : Option α := get? v.slots i

@[simp] theorem get_val (v : Vec α) (i : Fin 4) : get v i.val = some (v.get i) := get?_val ..

theorem get_three (v : Vec α) :
    get v 0 = some (v.get 0) ∧ get v 1 = some (v.get 1) ∧ get v 2 = some (v.get 2) :=
  ⟨get_val v 0, get_val v 1, get_val v 2⟩

def overwrite (v : Vec α) (f : Nat → Option α) : Option (Vec α) := do
  return ⟨v.dim, ← fill? (below v.dim) f v.slots⟩

def map (f : α → α) (v : Vec α) : Option (Vec α) := overwrite v fun i => do return f (← get v i)

def zipWith (f : α → α → α) (v w : Vec α) : Option (Vec α) :=
  overwrite v fun i => do return f (← get v i) (← get w i)

def dot [Add α] [Mul α] (v w : Vec α) : Option α :=
  sum v.dim fun i => do return (← get v i) * (← get w i)

def length (v : Vec Float) : Option Float := do return (← dot v v).sqrt

/-- Cuts the vector to a size, which may not exceed the storage. -/
def truncate [Zero α] (v : Vec α) (d : Dim) : Option (Vec α) := do
  return ⟨d, ← fill? (List.range' d.toNat (← minus? 4 d.toNat)) (fun _ => some 0) v.slots⟩

/-- The vector of components that are copied together. There must be as many as it has. -/
def ofList [Zero α] (d : Dim) (xs : List α) : Option (Vec α) :=
  if xs.length = d.toNat then overwrite (.zero d) (fun i => xs[i]?) else none

def cross [Zero α] [Sub α] [Mul α] (v w : Vec α) : Option (Vec α) := do
  let v₀ ← get v 0
  let v₁ ← get v 1
  let v₂ ← get v 2
  let w₀ ← get w 0
  let w₁ ← get w 1
  let w₂ ← get w 2
  ofList .three [v₁ * w₂ - v₂ * w₁, v₂ * w₀ - v₀ * w₂, v₀ * w₁ - v₁ * w₀]

theorem overwrite_eq {v : Vec α} {f : Nat → Option α} {g : Fin 4 → α}
    (h : ∀ i, v.dim.Active i → f i.val = some (g i)) : overwrite v f = some (v.overwrite g) := by
  rw [overwrite, fill?_eq lt_four_of_mem_below (fun i hi => h i (val_mem_below.1 hi))]
  refine congrArg some (Vec.ext_get rfl fun i => ?_)
  rw [v.get_overwrite]
  simp only [MatrixCalc.Vec.get, Quad.get_ofFn, val_mem_below]

theorem map_eq (f : α → α) (v : Vec α) : map f v = some (v.map f) :=
  overwrite_eq fun i _ => by rw [get_val]; rfl

theorem zipWith_eq (f : α → α → α) (v w : Vec α) : zipWith f v w = some (v.zipWith f w) :=
  overwrite_eq fun i _ => by rw [get_val, get_val]; rfl

theorem dot_eq [Add α] [Mul α] (v w : Vec α) : dot v w = some (v.dot w) :=
  sum_eq fun i => by rw [get_val, get_val]; rfl

theorem length_eq (v : Vec Float) : length v = some v.length := by
  rw [length, dot_eq]
  rfl

theorem truncate_eq [Zero α] (v : Vec α) (d : Dim) : truncate v d = some (v.truncate d) := by
  have hd := d.toNat_le_four
  have hlt : ∀ i ∈ List.range' d.toNat (4 - d.toNat), i < 4 := by
    intro i hi
    rw [List.mem_range'_1] at hi
    omega
  have hcut : ∀ i : Fin 4, i.val ∈ List.range' d.toNat (4 - d.toNat) ↔ ¬ d.Active i := by
    intro i
    rw [List.mem_range'_1, Dim.Active]
    omega
  rw [truncate, minus?_of_le hd, Option.bind_eq_bind, Option.bind_some,
    fill?_eq hlt (g := fun _ => 0) fun _ _ => rfl]
  refine congrArg some (Vec.ext_get rfl fun i => ?_)
  rw [v.get_truncate]
  simp only [MatrixCalc.Vec.get, Quad.get_ofFn, hcut, ite_not]

theorem ofList_eq [Zero α] {d : Dim} {xs : List α} (h : xs.length = d.toNat) :
    ofList d xs = some (.build d fun i => xs.getD i 0) := by
  rw [ofList, if_pos h]
  refine overwrite_eq fun i hi => ?_
  have hlength : i.val < xs.length := by
    rw [h]
    exact hi
  rw [List.getD_eq_getElem?_getD, List.getElem?_eq_getElem hlength]
  rfl

theorem cross_eq [Zero α] [Sub α] [Mul α] (v w : Vec α) : cross v w = some (v.cross w) := by
  obtain ⟨hv₀, hv₁, hv₂⟩ := get_three v
  obtain ⟨hw₀, hw₁, hw₂⟩ := get_three w
  have hthree : ∀ x y z : α, ofList .three [x, y, z] = some ⟨.three, x, y, z, 0⟩ :=
    fun _ _ _ => ofList_eq rfl
  rw [cross, hv₀, hv₁, hv₂, hw₀, hw₁, hw₂]
  exact hthree ..

end Vec

namespace Mat

def cell (m : Mat α) (r c : Nat) : Option α := do get? (← get? m.grid r) c

@[simp] theorem cell_val (m : Mat α) (r c : Fin 4) : cell m r.val c.val = some (m.cell r c) := by
  rw [cell, get?_val]
  exact get?_val ..

/-- Writes cells, row after row; which columns are written may depend on the row. -/
def write (m : Mat α) (rows : List Nat) (columns : Nat → List Nat) (f : Nat → Nat → Option α) :
    Option (Mat α) := do
  return ⟨m.dim, ← fill? rows (fun r => do fill? (columns r) (f r) (← get? m.grid r)) m.grid⟩

theorem write_eq {m : Mat α} {rows : List Nat} {columns : Nat → List Nat}
    {f : Nat → Nat → Option α} {g : Fin 4 → Fin 4 → α} (hrows : ∀ r ∈ rows, r < 4)
    (hcolumns : ∀ r ∈ rows, ∀ c ∈ columns r, c < 4)
    (h : ∀ r c : Fin 4, r.val ∈ rows → c.val ∈ columns r.val → f r.val c.val = some (g r c)) :
    write m rows columns f = some (.ofCells m.dim fun r c =>
      if r.val ∈ rows ∧ c.val ∈ columns r.val then g r c else m.cell r c) := by
  have hrow : ∀ r : Fin 4, r.val ∈ rows →
      (do fill? (columns r.val) (f r.val) (← get? m.grid r.val)) =
        some (.ofFn fun c => if c.val ∈ columns r.val then g r c else m.cell r c) := by
    intro r hr
    rw [get?_val]
    exact fill?_eq (hcolumns r.val hr) (fun c hc => h r c hr hc) (m.grid.get r)
  rw [write, fill?_eq hrows hrow]
  refine congrArg some (Mat.ext_cell rfl fun r c => ?_)
  rw [Mat.cell_ofCells, MatrixCalc.Mat.cell, Quad.get_ofFn]
  by_cases hr : r.val ∈ rows
  · simp only [hr, if_true, true_and, Quad.get_ofFn]
  · simp only [hr, if_false, false_and]
    rfl

def overwrite (m : Mat α) (f : Nat → Nat → Option α) : Option (Mat α) :=
  write m (below m.dim) (fun _ => below m.dim) f

def map (f : α → α) (m : Mat α) : Option (Mat α) :=
  overwrite m fun r c => do return f (← cell m r c)

def zipWith (f : α → α → α) (a b : Mat α) : Option (Mat α) :=
  overwrite a fun r c => do return f (← cell a r c) (← cell b r c)

def product [Add α] [Mul α] (a b : Mat α) : Option (Mat α) :=
  overwrite a fun r c => sum a.dim fun k => do return (← cell a r k) * (← cell b k c)

def transpose (m : Mat α) : Option (Mat α) := overwrite m fun r c => cell m c r

def apply [Zero α] [Add α] [Mul α] (m : Mat α) (v : Vec α) : Option (Vec α) := do
  let entry r := sum m.dim fun k => do return (← cell m r k) * (← Vec.get v k)
  let column ← fill? (below m.dim) entry (.ofFn fun _ => 0)
  Vec.truncate ⟨.four, column⟩ m.dim

theorem overwrite_eq {m : Mat α} {f : Nat → Nat → Option α} {g : Fin 4 → Fin 4 → α}
    (h : ∀ r c : Fin 4, f r.val c.val = some (g r c)) : overwrite m f = some (m.overwrite g) := by
  rw [overwrite, write_eq lt_four_of_mem_below (fun _ _ => lt_four_of_mem_below)
    fun r c _ _ => h r c]
  refine congrArg some (Mat.ext_cell rfl fun r c => ?_)
  simp only [m.cell_overwrite, Mat.cell_ofCells, val_mem_below]
  rfl

theorem map_eq (f : α → α) (m : Mat α) : map f m = some (m.map f) :=
  overwrite_eq fun r c => by rw [cell_val]; rfl

theorem zipWith_eq (f : α → α → α) (a b : Mat α) : zipWith f a b = some (a.zipWith f b) :=
  overwrite_eq fun r c => by rw [cell_val, cell_val]; rfl

theorem product_eq [Add α] [Mul α] (a b : Mat α) : product a b = some (a.product b) :=
  overwrite_eq fun r c => sum_eq fun k => by rw [cell_val, cell_val]; rfl

theorem transpose_eq (m : Mat α) : transpose m = some m.transpose :=
  overwrite_eq fun r c => cell_val m c r

theorem apply_eq [Zero α] [Add α] [Mul α] (m : Mat α) (v : Vec α) :
    apply m v = some (m.apply v) := by
  have hentry : ∀ r : Fin 4, r.val ∈ below m.dim →
      (sum m.dim fun k => do return (← cell m r k) * (← Vec.get v k)) =
        some (m.dim.sum fun k => m.cell r k * v.get k) :=
    fun r _ => sum_eq fun k => by rw [cell_val, Vec.get_val]; rfl
  rw [apply, fill?_eq lt_four_of_mem_below hentry, Option.bind_eq_bind, Option.bind_some,
    Vec.truncate_eq]
  refine congrArg some (congrArg (fun u => MatrixCalc.Vec.truncate u m.dim) ?_)
  refine Vec.ext_get rfl fun i => ?_
  have hi : Dim.four.Active i := i.isLt
  rw [Vec.get_build, if_pos hi]
  simp only [MatrixCalc.Vec.get, Quad.get_ofFn, val_mem_below]

section Padded

variable [Zero α] [One α]

/-- The matrix of a size with the part of another one that both have. -/
def resize (m : Mat α) (d : Dim) : Option (Mat α) :=
  let kept := List.range (min d.toNat m.dim.toNat)
  write (.identity d) kept (fun _ => kept) (cell m)

def diagonal (d : Dim) (x : α) : Option (Mat α) :=
  write (.identity d) (below d) (fun i => [i]) fun _ _ => some x

/-- The matrix of a grid whose rows are copied into a new one. -/
def copied (m : Mat α) : Option (Mat α) :=
  write (.identity m.dim) (below m.dim) (fun _ => below m.dim) (cell m)

def translation (v : Vec α) : Option (Mat α) :=
  write (.identity .four) [0, 1, 2] (fun _ => [3]) fun r _ => Vec.get v r

def scaling (v : Vec α) : Option (Mat α) :=
  write (.identity .four) [0, 1, 2] (fun r => [r]) fun r _ => Vec.get v r

theorem resize_eq (m : Mat α) (d : Dim) : resize m d = some (m.resize d) := by
  have hlt : ∀ i ∈ List.range (min d.toNat m.dim.toNat), i < 4 := by
    intro i hi
    have := List.mem_range.1 hi
    have := d.toNat_le_four
    omega
  rw [resize, write_eq hlt (fun _ _ => hlt) fun r c _ _ => cell_val m r c]
  refine congrArg some (Mat.ext_cell rfl fun r c => ?_)
  rw [Mat.cell_ofCells, MatrixCalc.Mat.resize, Mat.cell_build, Mat.cell_identity]
  have hkept : ∀ i : Fin 4, i.val ∈ List.range (min d.toNat m.dim.toNat) ↔
      d.Active i ∧ m.dim.Active i := fun i => by rw [List.mem_range, Nat.lt_min]; rfl
  simp only [hkept]
  by_cases hd : Mat.Inside d r c
  · by_cases hm : Mat.Inside m.dim r c
    · rw [if_pos hd, if_pos hm, if_pos ⟨⟨hd.1, hm.1⟩, hd.2, hm.2⟩]
    · rw [if_pos hd, if_neg hm, if_neg fun h => hm ⟨h.1.2, h.2.2⟩]
  · rw [if_neg hd, if_neg fun h => hd ⟨h.1.1, h.2.1⟩]

theorem diagonal_eq (d : Dim) (x : α) : diagonal d x = some (.diagonal d x) := by
  have hcolumns : ∀ i ∈ below d, ∀ c ∈ [i], c < 4 := by
    intro i hi c hc
    rw [List.mem_singleton.1 hc]
    exact lt_four_of_mem_below i hi
  rw [diagonal, write_eq lt_four_of_mem_below hcolumns fun _ _ _ _ => rfl]
  refine congrArg some (Mat.ext_cell rfl fun r c => ?_)
  rw [Mat.cell_ofCells, MatrixCalc.Mat.diagonal, Mat.cell_build, Mat.cell_identity]
  simp only [val_mem_below, List.mem_singleton, Mat.unit]
  by_cases hrc : r = c
  · subst hrc
    simp [Mat.Inside]
  · have hne : ¬ c.val = r.val := fun h => hrc (Fin.ext h.symm)
    rw [if_neg fun h => hne h.2, if_neg hrc, if_neg hrc, ite_self]

theorem copied_eq {m : Mat α} (h : m.dim = .four) : copied m = some m := by
  rw [copied, write_eq lt_four_of_mem_below (fun _ _ => lt_four_of_mem_below)
    fun r c _ _ => cell_val m r c]
  refine congrArg some (Mat.ext_cell rfl fun r c => ?_)
  have hinside : r.val ∈ below m.dim ∧ c.val ∈ below m.dim := by
    rw [h]
    exact ⟨List.mem_range.2 r.isLt, List.mem_range.2 c.isLt⟩
  rw [Mat.cell_ofCells, if_pos hinside]

theorem translation_eq (v : Vec α) :
    translation v = some (.translation (v.get 0) (v.get 1) (v.get 2)) := by
  rw [translation, write_eq (by simp) (by simp) fun r _ _ _ => Vec.get_val v r]
  rfl

theorem scaling_eq (v : Vec α) :
    scaling v = some (.scaling (v.get 0) (v.get 1) (v.get 2)) := by
  rw [scaling, write_eq (by simp) (by simp) fun r _ _ _ => Vec.get_val v r]
  rfl

end Padded

end Mat
end MatrixCalc.Checked
