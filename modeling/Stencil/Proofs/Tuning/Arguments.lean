import Mathlib.Data.List.Induction
import Stencil.Tuning.Session

namespace Stencil

namespace Table

variable {κ ν : Type} [BEq κ] [LawfulBEq κ]

theorem get?_insert_self (t : Table κ ν) (k : κ) (v : ν) : (t.insert k v).get? k = some v := by
  simp [get?_insert]

theorem get?_insert_of_ne (t : Table κ ν) {k k' : κ} (v : ν) (h : k ≠ k') :
    (t.insert k v).get? k' = t.get? k' := by
  simp [get?_insert, h]

theorem isSome_get?_insert {t : Table κ ν} {k' : κ} (k : κ) (v : ν) (h : (t.get? k').isSome) :
    ((t.insert k v).get? k').isSome := by
  rw [get?_insert]
  split
  · rfl
  · exact h

end Table

namespace Arguments

theorem int?_insert_self (args : Arguments) (name : String) (v : Int) :
    int? (args.insert name (.int v)) name = some v := by
  simp [int?, Table.get?_insert_self, Argument.int?]

theorem int?_insert_of_ne (args : Arguments) {name other : String} (a : Argument)
    (h : name ≠ other) : int? (args.insert name a) other = args.int? other := by
  simp [int?, Table.get?_insert_of_ne, h]

theorem get?_insertInts {xs : List (String × Int)} {name : String} (args : Arguments)
    (h : ∀ x ∈ xs, x.1 ≠ name) : (args.insertInts xs).get? name = args.get? name := by
  induction xs generalizing args with
  | nil => rfl
  | cons x xs ih =>
    have hxs := ih (args.insert x.1 (.int x.2)) fun y hy => h y (List.mem_cons_of_mem x hy)
    exact hxs.trans (Table.get?_insert_of_ne _ _ (h x List.mem_cons_self))

theorem int?_insertInts {xs : List (String × Int)} {name : String} (args : Arguments)
    (h : ∀ x ∈ xs, x.1 ≠ name) : (args.insertInts xs).int? name = args.int? name := by
  rw [int?, get?_insertInts args h, int?]

def lastValue (xs : List (String × Int)) (name : String) : Option Int :=
  (Table.ofList xs).get? name

theorem lastValue_snoc (xs : List (String × Int)) (x : String × Int) (name : String) :
    lastValue (xs ++ [x]) name = if x.1 = name then some x.2 else lastValue xs name := by
  simp [lastValue, Table.ofList, Table.get?_insert]

theorem lastValue_append (xs ys : List (String × Int)) (name : String) :
    lastValue (xs ++ ys) name = (lastValue ys name).or (lastValue xs name) := by
  induction ys using List.reverseRecOn with
  | nil => simp [lastValue, Table.ofList, Table.get?, Table.find?, Table.empty]
  | append_singleton ys y ih =>
    rw [← List.append_assoc, lastValue_snoc, lastValue_snoc, ih]
    split <;> rfl

theorem lastValue_eq_none {xs : List (String × Int)} {name : String} :
    lastValue xs name = none ↔ name ∉ xs.map (·.1) := by
  induction xs using List.reverseRecOn with
  | nil => simp [lastValue, Table.ofList, Table.get?, Table.find?, Table.empty]
  | append_singleton xs x ih =>
    rw [lastValue_snoc]
    by_cases h : x.1 = name
    · simp [h]
    · simp [h, ih, Ne.symm h]

theorem mem_of_lastValue {xs : List (String × Int)} {name : String} {v : Int}
    (h : lastValue xs name = some v) : (name, v) ∈ xs := by
  induction xs using List.reverseRecOn with
  | nil => simp [lastValue, Table.ofList, Table.get?, Table.find?, Table.empty] at h
  | append_singleton xs x ih =>
    rw [lastValue_snoc] at h
    split at h
    · rename_i hname
      simp [← hname, ← Option.some.inj h]
    · exact List.mem_append_left _ (ih h)

theorem get?_of_int? {args : Arguments} {name : String} {v : Int} (h : args.int? name = some v) :
    args.get? name = some (.int v) := by
  obtain ⟨a, ha, hv⟩ := Option.bind_eq_some_iff.1 h
  cases a with
  | int w => rw [ha, Option.some.inj hv]
  | _ => simp [Argument.int?] at hv

theorem get?_insertInts_eq (args : Arguments) (xs : List (String × Int)) (name : String) :
    (args.insertInts xs).get? name = ((lastValue xs name).map .int).or (args.get? name) := by
  induction xs using List.reverseRecOn with
  | nil => simp [lastValue, insertInts, Table.ofList, Table.get?, Table.find?, Table.empty]
  | append_singleton xs x ih =>
    have hsnoc : args.insertInts (xs ++ [x]) = (args.insertInts xs).insert x.1 (.int x.2) := by
      simp [insertInts]
    rw [hsnoc, lastValue_snoc, Table.get?_insert, ih]
    by_cases h : x.1 = name <;> simp [h]

theorem isSome_get?_insertInts (xs : List (String × Int)) {args : Arguments} {name : String}
    (h : (args.get? name).isSome) : ((args.insertInts xs).get? name).isSome := by
  induction xs generalizing args with
  | nil => exact h
  | cons x xs ih => exact ih (Table.isSome_get?_insert x.1 _ h)

def Complete (ps : List Parameter) (args : Arguments) : Prop :=
  ∀ p ∈ ps, (args.get? p.name).isSome

theorem Complete.insert {ps : List Parameter} {args : Arguments} (h : Complete ps args)
    (name : String) (a : Argument) : Complete ps (args.insert name a) :=
  fun p hp => Table.isSome_get?_insert name a (h p hp)

theorem Complete.insertInts {ps : List Parameter} {args : Arguments} (h : Complete ps args)
    (xs : List (String × Int)) : Complete ps (args.insertInts xs) :=
  fun p hp => isSome_get?_insertInts xs (h p hp)

end Arguments

namespace Signature

theorem positional_eq_map {k : Signature} {args : Arguments} (h : args.Complete k.parameters) :
    (k.positional args).map some = k.parameters.map fun p => args.get? p.name := by
  unfold positional
  generalize k.parameters = ps at h ⊢
  induction ps with
  | nil => rfl
  | cons p ps ih =>
    obtain ⟨a, ha⟩ := Option.isSome_iff_exists.1 (h p List.mem_cons_self)
    simp [ha, ih fun q hq => h q (List.mem_cons_of_mem p hq)]

theorem get?_of_mem_zip {k : Signature} {args : Arguments} (h : args.Complete k.parameters)
    {x : Parameter × Argument} (hx : x ∈ k.parameters.zip (k.positional args)) :
    args.get? x.1.name = some x.2 := by
  have hmap := positional_eq_map h
  generalize k.positional args = values at hx hmap
  generalize k.parameters = ps at hx hmap
  induction ps generalizing values with
  | nil => simp at hx
  | cons p ps ih =>
    cases values with
    | nil => simp at hx
    | cons v values =>
      simp only [List.map_cons, List.cons.injEq] at hmap
      rcases List.mem_cons.1 hx with rfl | hx
      · exact hmap.1.symm
      · exact ih values hx hmap.2

theorem get?_foldl_zip {names : List String} {values : List Argument} {args : Arguments}
    (h : values.map some = names.map args.get?) (start : Arguments) (name : String) :
    ((names.zip values).foldl (fun t x => t.insert x.1 x.2) start).get? name =
      if name ∈ names then args.get? name else start.get? name := by
  induction names generalizing values start with
  | nil => simp
  | cons n ns ih =>
    cases values with
    | nil => simp at h
    | cons v vs =>
      simp only [List.map_cons, List.cons.injEq] at h
      rw [List.zip_cons_cons, List.foldl_cons, ih h.2]
      by_cases hn : name ∈ ns
      · simp [hn]
      · by_cases he : n = name
        · simp [← he, Table.get?_insert_self, h.1]
        · simp [hn, he, Ne.symm he, Table.get?_insert_of_ne]

theorem get?_named_positional {k : Signature} {args : Arguments} (h : args.Complete k.parameters)
    (name : String) : (k.named (k.positional args)).get? name =
      if name ∈ k.parameters.map (·.name) then args.get? name else none := by
  have hmap : (k.positional args).map some = (k.parameters.map (·.name)).map args.get? := by
    rw [positional_eq_map h, List.map_map]
    rfl
  exact get?_foldl_zip hmap .empty name

theorem int?_named_positional {k : Signature} {args : Arguments} (h : args.Complete k.parameters)
    {name : String} (hname : name ∈ k.parameters.map (·.name)) :
    (k.named (k.positional args)).int? name = args.int? name := by
  rw [Arguments.int?, get?_named_positional h, if_pos hname, Arguments.int?]

def tunables (k : Signature) : List String :=
  k.blocks.filterMap (fun b => b.block?.map (·.2.1)) ++ (k.ofKind .threads).map (·.name)

end Signature

namespace Tuning

theorem get?_bindFold {ps : List Parameter} {caller start args : Arguments}
    (h : ps.foldlM (fun (args : Arguments) p =>
      match caller.get? p.name with
      | some v => Except.ok (args.insert p.name v)
      | none => .error (TuningError.missingArgument p.name)) start = .ok args) :
    caller.Complete ps ∧ ∀ name, args.get? name =
      if name ∈ ps.map (·.name) then caller.get? name else start.get? name := by
  induction ps generalizing start with
  | nil =>
    cases h
    exact ⟨fun p hp => absurd hp List.not_mem_nil, fun name => by simp⟩
  | cons p ps ih =>
    rw [List.foldlM_cons] at h
    cases hp : caller.get? p.name with
    | none => simp [hp, bind, Except.bind] at h
    | some v =>
      simp only [hp, bind, Except.bind] at h
      obtain ⟨hc, hget⟩ := ih h
      constructor
      · intro q hq
        rcases List.mem_cons.1 hq with rfl | hq
        · simp [hp]
        · exact hc q hq
      · intro name
        rw [hget]
        by_cases hn : name ∈ ps.map (·.name)
        · simp [hn]
        · by_cases he : p.name = name
          · subst he
            simp only [hn, if_false, List.map_cons, List.mem_cons, true_or, if_true, hp,
              Table.get?_insert_self]
          · simp only [hn, if_false, List.map_cons, List.mem_cons, Ne.symm he, or_false,
              Table.get?_insert_of_ne _ _ he]

theorem get?_bindParameters {ps : List Parameter} {caller args : Arguments}
    (h : bindParameters ps caller = .ok args) (name : String) :
    args.get? name = if name ∈ ps.map (·.name) then caller.get? name else none :=
  (get?_bindFold h).2 name

theorem complete_bindParameters {ps : List Parameter} {caller args : Arguments}
    (h : bindParameters ps caller = .ok args) : args.Complete ps := by
  intro p hp
  rw [get?_bindParameters h, if_pos (List.mem_map_of_mem hp)]
  exact (get?_bindFold h).1 p hp

variable {κ : Type}

def copyOutput (q : Parameter) (x : Arguments × Store) : Arguments × Store :=
  match x.1.get? q.name with
  | some (.buffer b) => (x.1.insert q.name (x.2.copyBuffer b).1, (x.2.copyBuffer b).2)
  | _ => x

theorem copyOutputs_eq (k : Kernel κ) (args : Arguments) (s : Store) :
    copyOutputs k args s = (k.ofKind .output).foldl (fun x q => copyOutput q x) (args, s) := rfl

theorem copyOutput_cases (q : Parameter) (x : Arguments × Store) :
    (∃ b, x.1.get? q.name = some (.buffer b) ∧
      copyOutput q x = (x.1.insert q.name (x.2.copyBuffer b).1, (x.2.copyBuffer b).2)) ∨
    (∀ b, x.1.get? q.name ≠ some (.buffer b)) ∧ copyOutput q x = x := by
  unfold copyOutput
  split
  · rename_i b hb
    exact .inl ⟨b, hb, rfl⟩
  · rename_i hnone
    exact .inr ⟨hnone, rfl⟩

theorem copyOutputs_induction {k : Kernel κ} {motive : Arguments × Store → Prop}
    {args : Arguments} {s : Store} (h : motive (args, s))
    (hstep : ∀ q ∈ k.ofKind .output, ∀ x, motive x → motive (copyOutput q x)) :
    motive (copyOutputs k args s) := by
  rw [copyOutputs_eq]
  generalize (args, s) = x at h
  generalize k.ofKind .output = qs at hstep
  induction qs generalizing x with
  | nil => exact h
  | cons q qs ih =>
    exact ih _ (hstep q List.mem_cons_self x h)
      fun q' hq' => hstep q' (List.mem_cons_of_mem q hq')

theorem get?_copyOutputs_of_ne {k : Kernel κ} {args : Arguments} {s : Store} {name : String}
    (h : ∀ q ∈ k.ofKind .output, q.name ≠ name) :
    (copyOutputs k args s).1.get? name = args.get? name := by
  refine copyOutputs_induction (motive := fun x => x.1.get? name = args.get? name) rfl ?_
  intro q hq x hx
  rcases copyOutput_cases q x with ⟨b, -, hcopy⟩ | ⟨-, hcopy⟩
  · rw [hcopy, Table.get?_insert_of_ne _ _ (h q hq), hx]
  · rw [hcopy, hx]

theorem int?_copyOutputs (k : Kernel κ) (args : Arguments) (s : Store) (name : String) :
    (copyOutputs k args s).1.int? name = args.int? name := by
  refine copyOutputs_induction (motive := fun x => x.1.int? name = args.int? name) rfl ?_
  intro q _ x hx
  rw [← hx]
  rcases copyOutput_cases q x with ⟨b, hb, hcopy⟩ | ⟨-, hcopy⟩
  · rw [hcopy]
    by_cases hname : q.name = name
    · subst hname
      simp [Arguments.int?, Table.get?_insert_self, hb, Store.copyBuffer, Store.newBuffer,
        Argument.int?]
    · exact Arguments.int?_insert_of_ne _ _ hname
  · rw [hcopy]

theorem complete_copyOutputs (k : Kernel κ) {ps : List Parameter} {args : Arguments} (s : Store)
    (h : args.Complete ps) : (copyOutputs k args s).1.Complete ps := by
  refine copyOutputs_induction (motive := fun x => x.1.Complete ps) h ?_
  intro q _ x hx
  rcases copyOutput_cases q x with ⟨b, -, hcopy⟩ | ⟨-, hcopy⟩
  · rw [hcopy]
    exact hx.insert q.name _
  · rwa [hcopy]

end Tuning

end Stencil
