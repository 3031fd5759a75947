import Mathlib.Tactic.Basic

set_option autoImplicit false

namespace NvdlaVp.KeyValueStore

def Store (κ ν : Type*) := κ → Option ν

namespace Store
variable {κ ν : Type*}

def empty : Store κ ν := fun _ => none
def get (m : Store κ ν) (k : κ) : Option ν := m k

variable [DecidableEq κ]

def put (m : Store κ ν) (k : κ) (v : ν) : Store κ ν :=
  fun j => if j = k then some v else m j
def del (m : Store κ ν) (k : κ) : Store κ ν := fun j => if j = k then none else m j

omit [DecidableEq κ] in
@[simp] theorem get_empty (k : κ) : (empty : Store κ ν).get k = none := rfl

@[simp] theorem get_put (m : Store κ ν) (k : κ) (v : ν) : (m.put k v).get k = some v := by
  simp [get, put]

@[simp] theorem get_put_of_ne (m : Store κ ν) {j k : κ} (v : ν) (h : j ≠ k) :
    (m.put k v).get j = m.get j := by
  simp [get, put, h]

@[simp] theorem get_del (m : Store κ ν) (k : κ) : (m.del k).get k = none := by
  simp [get, del]

@[simp] theorem get_del_of_ne (m : Store κ ν) {j k : κ} (h : j ≠ k) :
    (m.del k).get j = m.get j := by
  simp [get, del, h]

theorem get_del_eq_some {m : Store κ ν} {j k : κ} {v : ν} (h : (m.del k).get j = some v) :
    j ≠ k ∧ m.get j = some v := by
  by_cases hjk : j = k
  · subst j
    simp at h
  · exact ⟨hjk, by simpa [hjk] using h⟩

theorem get_put_eq_some {m : Store κ ν} {j k : κ} {v w : ν} (h : (m.put k v).get j = some w) :
    (j = k ∧ w = v) ∨ (j ≠ k ∧ m.get j = some w) := by
  by_cases hjk : j = k
  · subst j
    exact .inl ⟨rfl, by simpa using h.symm⟩
  · exact .inr ⟨hjk, by simpa [hjk] using h⟩

end Store
end NvdlaVp.KeyValueStore
