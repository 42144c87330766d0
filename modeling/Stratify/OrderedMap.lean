/-!
# Maps that remember insertion order

The entries stand in the order in which their keys were first inserted; giving a key a new value
keeps its place. No key occurs twice, by the type.
-/

namespace Stratify

structure OrderedMap (α β : Type) where
  entries : List (α × β)
  nodup : (entries.map Prod.fst).Nodup

namespace OrderedMap

variable {α β : Type}

def empty : OrderedMap α β :=
  ⟨[], by simp⟩

instance : Inhabited (OrderedMap α β) :=
  ⟨empty⟩

def keys (m : OrderedMap α β) : List α :=
  m.entries.map Prod.fst

def values (m : OrderedMap α β) : List β :=
  m.entries.map Prod.snd

def size (m : OrderedMap α β) : Nat :=
  m.entries.length

variable [DecidableEq α]

def get? (m : OrderedMap α β) (k : α) : Option β :=
  (m.entries.find? fun e ↦ decide (e.1 = k)).map Prod.snd

def contains (m : OrderedMap α β) (k : α) : Bool :=
  (m.get? k).isSome

def index? (m : OrderedMap α β) (k : α) : Option Nat :=
  m.keys.findIdx? fun x ↦ decide (x = k)

/-- Gives a key its new value where it first occurs. -/
def overwrite (k : α) (v : β) : List (α × β) → List (α × β)
  | [] => []
  | e :: es => if e.1 = k then (k, v) :: es else e :: overwrite k v es

theorem keys_overwrite (k : α) (v : β) (entries : List (α × β)) :
    (overwrite k v entries).map Prod.fst = entries.map Prod.fst := by
  induction entries with
  | nil => rfl
  | cons e es ih =>
      unfold overwrite
      split
      · next h => simp [h]
      · simp [ih]

/-- A new key goes to the end, a known one keeps its place. -/
def insert (m : OrderedMap α β) (k : α) (v : β) : OrderedMap α β :=
  if h : k ∈ m.entries.map Prod.fst then
    ⟨overwrite k v m.entries, by rw [keys_overwrite]; exact m.nodup⟩
  else
    ⟨m.entries ++ [(k, v)], by
      rw [List.map_append, List.nodup_append]
      refine ⟨m.nodup, by simp, ?_⟩
      intro a ha b hb hab
      simp only [List.map_cons, List.map_nil, List.mem_singleton] at hb
      exact h (hb ▸ hab ▸ ha)⟩

theorem keys_insert (m : OrderedMap α β) (k : α) (v : β) :
    (m.insert k v).keys = if k ∈ m.keys then m.keys else m.keys ++ [k] := by
  unfold insert keys
  split <;> simp_all [keys_overwrite]

theorem find?_overwrite (k k' : α) (v : β) (entries : List (α × β)) :
    ((overwrite k v entries).find? fun e ↦ decide (e.1 = k')).map Prod.snd =
      if k' = k ∧ k ∈ entries.map Prod.fst then some v
      else (entries.find? fun e ↦ decide (e.1 = k')).map Prod.snd := by
  induction entries with
  | nil => simp [overwrite]
  | cons e es ih =>
      unfold overwrite
      by_cases he : e.1 = k
      · by_cases hk : k' = k
        · simp [he, hk]
        · simp [he, hk, Ne.symm hk]
      · by_cases hk : e.1 = k'
        · have hne : k' ≠ k := fun h ↦ he (hk.trans h)
          rw [if_neg he, List.find?_cons_of_pos (by simpa using hk),
            List.find?_cons_of_pos (by simpa using hk)]
          simp [hne]
        · rw [if_neg he, List.find?_cons_of_neg (by simpa using hk), ih,
            List.find?_cons_of_neg (by simpa using hk)]
          have hmem : k ∈ (e :: es).map Prod.fst ↔ k ∈ es.map Prod.fst := by
            simp [Ne.symm he]
          simp only [hmem]

theorem get?_insert (m : OrderedMap α β) (k k' : α) (v : β) :
    (m.insert k v).get? k' = if k' = k then some v else m.get? k' := by
  unfold insert get?
  split
  · next h => rw [find?_overwrite]; simp [h]
  · next h =>
      rw [List.find?_append]
      by_cases hk : k' = k
      · subst hk
        have hnone : (m.entries.find? fun e ↦ decide (e.1 = k')) = none := by
          rw [List.find?_eq_none]
          intro e he hek
          exact h (List.mem_map.mpr ⟨e, he, by simpa using hek⟩)
        simp [hnone]
      · simp [hk, Ne.symm hk]

end OrderedMap

end Stratify
