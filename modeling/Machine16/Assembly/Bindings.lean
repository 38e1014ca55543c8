/-! Names bound to values, in the order of their definition. A name is bound once. -/
namespace Machine16

structure Bindings (α : Type) where
  entries : List (String × α) := []
  nodup : (entries.map Prod.fst).Nodup := by simp

namespace Bindings

variable {α : Type}

def empty : Bindings α := {}

def names (b : Bindings α) : List String := b.entries.map Prod.fst

def get? (b : Bindings α) (name : String) : Option α := b.entries.lookup name

def contains (b : Bindings α) (name : String) : Bool := b.names.contains name

def size (b : Bindings α) : Nat := b.entries.length

/-- Nothing if the name is bound already. -/
def define? (b : Bindings α) (name : String) (value : α) : Option (Bindings α) :=
  if h : b.contains name then none
  else some ⟨b.entries ++ [(name, value)], by
    rw [List.map_append, List.nodup_append]
    refine ⟨b.nodup, by simp, ?_⟩
    rintro x hx _ hy rfl
    simp only [List.map_cons, List.map_nil, List.mem_singleton] at hy
    subst hy
    simp_all [contains, names]⟩

theorem contains_eq_isSome (b : Bindings α) (name : String) :
    b.contains name = (b.get? name).isSome := by
  rw [Bool.eq_iff_iff, contains, names, List.contains_iff_mem, get?, List.lookup_isSome_iff,
    List.mem_map]
  constructor
  · rintro ⟨e, he, rfl⟩
    exact ⟨e, he, beq_self_eq_true _⟩
  · rintro ⟨e, he, hn⟩
    exact ⟨e, he, (eq_of_beq hn).symm⟩

theorem entries_define? {b b' : Bindings α} {name : String} {value : α}
    (h : b.define? name value = some b') :
    b.contains name = false ∧ b'.entries = b.entries ++ [(name, value)] := by
  unfold define? at h
  split at h
  · cases h
  · rename_i hb
    cases h
    exact ⟨by simpa using hb, rfl⟩

/-- A definition binds its own name and leaves the others alone. -/
theorem get?_define? {b b' : Bindings α} {name : String} {value : α}
    (h : b.define? name value = some b') (other : String) :
    b'.get? other = if name = other then some value else b.get? other := by
  obtain ⟨hb, he⟩ := entries_define? h
  rw [contains_eq_isSome, Option.isSome_eq_false_iff, Option.isNone_iff_eq_none] at hb
  rw [get?, he, List.lookup_append]
  by_cases hn : name = other
  · subst hn
    rw [get?] at hb
    simp [hb]
  · have : (other == name) = false := by simpa using fun h => hn h.symm
    simp [get?, List.lookup_cons, this, hn]

end Bindings
end Machine16
