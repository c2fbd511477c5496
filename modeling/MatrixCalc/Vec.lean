import MatrixCalc.Dim

/-!
# Vectors

A vector has two to four components, stored in four slots. The slots behind the last
component hold zero, so a vector read at a larger size is padded with zeros and one read at a
smaller size is cut. A new vector starts with zeros everywhere; an operation on a vector works on
a copy of it and writes the components only.
-/
namespace MatrixCalc

structure Vec (α : Type) where
  dim : Dim
  slots : Quad α
  deriving DecidableEq

namespace Vec

variable {α : Type}

/-- The component at an index, or the padding behind the components. -/
def get (v : Vec α) (i : Fin 4) : α := v.slots.get i

/-- The slots behind the components hold zero. -/
def Padded [Zero α] (v : Vec α) : Prop := ∀ i, ¬ v.dim.Active i → v.get i = 0

/-- A copy with other components. -/
def overwrite (v : Vec α) (f : Fin 4 → α) : Vec α :=
  ⟨v.dim, .ofFn fun i => if v.dim.Active i then f i else v.get i⟩

def zero [Zero α] (d : Dim) : Vec α := ⟨d, .ofFn fun _ => 0⟩

def build [Zero α] (d : Dim) (f : Fin 4 → α) : Vec α := (zero d).overwrite f

/-- The slots up to a size as they are stored, whatever the size of the vector. -/
def project (v : Vec α) (d : Dim) : List α := d.indices.map v.get

def toList (v : Vec α) : List α := v.dim.indices.map v.get

def resize [Zero α] (v : Vec α) (d : Dim) : Vec α :=
  build d fun i => if v.dim.Active i then v.get i else 0

/-- Cuts the vector to a smaller size. -/
def truncate [Zero α] (v : Vec α) (d : Dim) : Vec α :=
  ⟨d, .ofFn fun i => if d.Active i then v.get i else 0⟩

def map (f : α → α) (v : Vec α) : Vec α := v.overwrite fun i => f (v.get i)

def zipWith (f : α → α → α) (v w : Vec α) : Vec α :=
  v.overwrite fun i => f (v.get i) (w.get i)

def dot [Add α] [Mul α] (v w : Vec α) : α := v.dim.sum fun i => v.get i * w.get i

def length (v : Vec Float) : Float := (v.dot v).sqrt

def cross [Zero α] [Sub α] [Mul α] (v w : Vec α) : Vec α :=
  ⟨.three, v.get 1 * w.get 2 - v.get 2 * w.get 1, v.get 2 * w.get 0 - v.get 0 * w.get 2,
    v.get 0 * w.get 1 - v.get 1 * w.get 0, 0⟩

/-- Same size and equal slots. -/
def equals [BEq α] (v w : Vec α) : Bool := decide (v.dim = w.dim) && v.slots == w.slots

@[simp] theorem dim_overwrite (v : Vec α) (f : Fin 4 → α) : (v.overwrite f).dim = v.dim := rfl

theorem get_overwrite (v : Vec α) (f : Fin 4 → α) (i : Fin 4) :
    (v.overwrite f).get i = if v.dim.Active i then f i else v.get i := by
  simp [overwrite, get]

@[simp] theorem dim_zero [Zero α] (d : Dim) : (zero d : Vec α).dim = d := rfl

@[simp] theorem get_zero [Zero α] (d : Dim) (i : Fin 4) : (zero d : Vec α).get i = 0 := by
  simp [zero, get]

theorem get_build [Zero α] (d : Dim) (f : Fin 4 → α) (i : Fin 4) :
    (build d f).get i = if d.Active i then f i else 0 := by
  rw [build, get_overwrite, get_zero, dim_zero]

theorem get_truncate [Zero α] (v : Vec α) (d : Dim) (i : Fin 4) :
    (v.truncate d).get i = if d.Active i then v.get i else 0 := by
  simp [truncate, get]

theorem ext_get {v w : Vec α} (hd : v.dim = w.dim) (h : ∀ i, v.get i = w.get i) : v = w := by
  cases v; cases w
  simp only at hd
  exact congr (congrArg mk hd) (Quad.ext_get h)

end Vec
end MatrixCalc
