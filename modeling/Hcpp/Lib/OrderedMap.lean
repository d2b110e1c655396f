import Mathlib.Order.Lattice
import Mathlib.Data.List.Basic

/-!
# Ordered maps

A map with its entries in the order of their keys, each key once.  Inserting
keeps the entry of a key that is taken; entries that come in the order of their
keys are put one behind the other.
-/

/-- The entries of a map over ordered keys. -/
@[ext] structure OrderedMap (K V : Type) [LinearOrder K] where
  entries : List (K × V)
  sorted : entries.Pairwise fun a b => a.1 < b.1

namespace OrderedMap

variable {K V : Type} [LinearOrder K]

def empty : OrderedMap K V := ⟨[], .nil⟩

/-- In front of the first greater key, and nothing where the key is taken. -/
def insertEntry (k : K) (v : V) : List (K × V) → List (K × V)
  | [] => [(k, v)]
  | e :: es =>
    if k < e.1 then (k, v) :: e :: es
    else if k = e.1 then e :: es
    else e :: insertEntry k v es

theorem mem_insertEntry {k : K} {v : V} {e : K × V} {es : List (K × V)}
    (h : e ∈ insertEntry k v es) : e = (k, v) ∨ e ∈ es := by
  induction es with
  | nil => exact .inl (List.mem_singleton.mp h)
  | cons e' es ih =>
    rw [insertEntry] at h
    split_ifs at h
    · exact List.mem_cons.mp h
    · exact .inr h
    · rcases List.mem_cons.mp h with h | h
      · exact .inr (List.mem_cons.mpr (.inl h))
      · rcases ih h with h | h
        · exact .inl h
        · exact .inr (List.mem_cons_of_mem _ h)

theorem insertEntry_sorted (k : K) (v : V) {es : List (K × V)}
    (h : es.Pairwise fun a b => a.1 < b.1) :
    (insertEntry k v es).Pairwise fun a b => a.1 < b.1 := by
  induction es with
  | nil => exact List.pairwise_singleton _ _
  | cons e es ih =>
    obtain ⟨hall, hes⟩ := List.pairwise_cons.mp h
    rw [insertEntry]
    split_ifs with hlt heq
    · refine List.pairwise_cons.mpr ⟨?_, h⟩
      intro b hb
      rcases List.mem_cons.mp hb with rfl | hb
      · exact hlt
      · exact lt_trans hlt (hall b hb)
    · exact h
    · refine List.pairwise_cons.mpr ⟨?_, ih hes⟩
      intro b hb
      rcases mem_insertEntry hb with rfl | hb
      · exact lt_of_le_of_ne (not_lt.mp hlt) fun h => heq h.symm
      · exact hall b hb

def insert (m : OrderedMap K V) (k : K) (v : V) : OrderedMap K V :=
  ⟨insertEntry k v m.entries, insertEntry_sorted k v m.sorted⟩

/-- A key above all others goes to the end. -/
theorem insert_last (m : OrderedMap K V) {k : K} (v : V) (h : ∀ e ∈ m.entries, e.1 < k) :
    (m.insert k v).entries = m.entries ++ [(k, v)] := by
  show insertEntry k v m.entries = _
  generalize m.entries = es at h
  induction es with
  | nil => rfl
  | cons e es ih =>
    have hlt := h e List.mem_cons_self
    rw [insertEntry, if_neg (not_lt.mpr (le_of_lt hlt)), if_neg (ne_of_gt hlt),
      ih fun e' he' => h e' (List.mem_cons_of_mem _ he')]
    rfl

end OrderedMap
