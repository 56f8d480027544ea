/-!
A finite map that remembers the order in which its keys arrived. Writing to a key that is
already present keeps the key where it is.
-/

namespace Stencil

structure Table (κ ν : Type) where
  entries : List (κ × ν) := []
  deriving DecidableEq

namespace Table

variable {κ ν : Type} [BEq κ]

def empty : Table κ ν := ⟨[]⟩

def find? (k : κ) : List (κ × ν) → Option ν
  | [] => none
  | (k', v) :: r => if k' == k then some v else find? k r

def get? (t : Table κ ν) (k : κ) : Option ν := find? k t.entries

def contains (t : Table κ ν) (k : κ) : Bool := (t.get? k).isSome

def put (k : κ) (v : ν) : List (κ × ν) → List (κ × ν)
  | [] => [(k, v)]
  | (k', v') :: r => if k' == k then (k', v) :: r else (k', v') :: put k v r

def insert (t : Table κ ν) (k : κ) (v : ν) : Table κ ν := ⟨put k v t.entries⟩

def insertIfNew (t : Table κ ν) (k : κ) (v : ν) : Table κ ν :=
  if t.contains k then t else t.insert k v

def update (t : Table κ ν) (k : κ) (v : ν) (f : ν → ν) : Table κ ν :=
  t.insert k (f ((t.get? k).getD v))

def drop (k : κ) : List (κ × ν) → List (κ × ν)
  | [] => []
  | (k', v) :: r => if k' == k then r else (k', v) :: drop k r

def erase (t : Table κ ν) (k : κ) : Table κ ν := ⟨drop k t.entries⟩

omit [BEq κ] in
def keys (t : Table κ ν) : List κ := t.entries.map (·.1)

omit [BEq κ] in
def values (t : Table κ ν) : List ν := t.entries.map (·.2)

omit [BEq κ] in
def size (t : Table κ ν) : Nat := t.entries.length

omit [BEq κ] in
def isEmpty (t : Table κ ν) : Bool := t.entries.isEmpty

def ofList (xs : List (κ × ν)) : Table κ ν := xs.foldl (fun t x => t.insert x.1 x.2) empty

omit [BEq κ] in
def mapValues {μ : Type} (f : ν → μ) (t : Table κ ν) : Table κ μ :=
  ⟨t.entries.map fun x => (x.1, f x.2)⟩

def counts (xs : List κ) : Table κ Nat := xs.foldl (fun t x => t.update x 0 (· + 1)) empty

theorem find?_put [EquivBEq κ] (k k' : κ) (v : ν) (es : List (κ × ν)) :
    find? k' (put k v es) = if k == k' then some v else find? k' es := by
  induction es with
  | nil => simp [put, find?]
  | cons e r ih =>
    by_cases h : (e.1 == k) = true
    · have hk : (e.1 == k') = (k == k') := BEq.congr_left h
      by_cases h' : (k == k') = true <;> simp_all [put, find?]
    · by_cases h' : (e.1 == k') = true
      · have hk : (k == k') = false := Bool.eq_false_iff.2 fun hk =>
          h (BEq.trans h' (BEq.symm hk))
        simp_all [put, find?]
      · simp_all [put, find?]

theorem get?_insert [EquivBEq κ] (t : Table κ ν) (k k' : κ) (v : ν) :
    (t.insert k v).get? k' = if k == k' then some v else t.get? k' :=
  find?_put k k' v t.entries

theorem find?_eq_none [LawfulBEq κ] {k : κ} {es : List (κ × ν)} :
    find? k es = none ↔ k ∉ es.map (·.1) := by
  induction es with
  | nil => simp [find?]
  | cons e r ih =>
    by_cases h : e.1 = k
    · simp [find?, h]
    · simp [find?, h, Ne.symm h, ih]

theorem get?_eq_none [LawfulBEq κ] {t : Table κ ν} {k : κ} : t.get? k = none ↔ k ∉ t.keys :=
  find?_eq_none

theorem map_put_of_mem [LawfulBEq κ] {k : κ} (v : ν) {es : List (κ × ν)}
    (h : k ∈ es.map (·.1)) : (put k v es).map (·.1) = es.map (·.1) := by
  induction es with
  | nil => simp at h
  | cons e r ih =>
    by_cases he : e.1 = k
    · simp [put, he]
    · have hr : k ∈ r.map (·.1) := by
        rcases List.mem_cons.1 h with h | h
        · exact absurd h.symm he
        · exact h
      simp [put, he, ih hr]

theorem map_put_of_not_mem [LawfulBEq κ] {k : κ} (v : ν) {es : List (κ × ν)}
    (h : k ∉ es.map (·.1)) : (put k v es).map (·.1) = es.map (·.1) ++ [k] := by
  induction es with
  | nil => simp [put]
  | cons e r ih =>
    have he : e.1 ≠ k := fun he => h (by simp [he])
    have hr : k ∉ r.map (·.1) := fun hr => h (List.mem_cons_of_mem _ hr)
    simp [put, he, ih hr]

theorem keys_insert_of_mem [LawfulBEq κ] {t : Table κ ν} {k : κ} (v : ν) (h : k ∈ t.keys) :
    (t.insert k v).keys = t.keys :=
  map_put_of_mem v h

theorem keys_insert_of_not_mem [LawfulBEq κ] {t : Table κ ν} {k : κ} (v : ν) (h : k ∉ t.keys) :
    (t.insert k v).keys = t.keys ++ [k] :=
  map_put_of_not_mem v h

end Table

end Stencil
