import MatrixCalc.Text

/-!
# The table of variables

A variable stands for a text that is spliced into the lines that read it. The table starts with
the constants `pi` and `e`. An assignment replaces the text of a name or adds the name; no name
is ever lost.
-/
namespace MatrixCalc

structure Variables where
  /-- Names and their texts; of two entries of one name the first counts. -/
  entries : List (Text × Text)
  deriving DecidableEq

namespace Variables

def initial : Variables :=
  ⟨[("pi".toList, "3.141592653589793".toList), ("e".toList, "2.718281828459045".toList)]⟩

def get? (vars : Variables) (name : Text) : Option Text := vars.entries.lookup name

def contains (vars : Variables) (name : Text) : Bool := (vars.get? name).isSome

def replace (name value : Text) : List (Text × Text) → List (Text × Text)
  | [] => [(name, value)]
  | entry :: rest =>
    if entry.1 = name then (name, value) :: rest else entry :: replace name value rest

def assign (vars : Variables) (name value : Text) : Variables :=
  ⟨replace name value vars.entries⟩

def sorted (vars : Variables) : List (Text × Text) :=
  vars.entries.mergeSort fun a b => (compare a.1 b.1).isLE

theorem lookup_replace (name value other : Text) (entries : List (Text × Text)) :
    (replace name value entries).lookup other =
      if other = name then some value else entries.lookup other := by
  induction entries with
  | nil =>
    by_cases h : other = name
    · simp [replace, h]
    · simp [replace, List.lookup_cons, beq_eq_false_iff_ne.2 h, h]
  | cons entry rest ih =>
    obtain ⟨key, text⟩ := entry
    by_cases h : other = key
    · subst h
      by_cases hk : other = name <;> simp [replace, hk]
    · have hb : (other == key) = false := beq_eq_false_iff_ne.2 h
      by_cases hk : key = name
      · subst hk
        simp [replace, List.lookup_cons, hb, h]
      · simp [replace, List.lookup_cons, hk, hb, ih]

theorem get?_assign (vars : Variables) (name value other : Text) :
    (vars.assign name value).get? other = if other = name then some value else vars.get? other :=
  lookup_replace name value other vars.entries

end Variables
end MatrixCalc
