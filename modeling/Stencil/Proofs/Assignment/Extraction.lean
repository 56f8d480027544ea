import Stencil.Assignment.Extraction
import Stencil.Proofs.Pass.Scheduled

namespace Stencil.Extraction

open Stencil.Expr Stencil.Flow Schedule

variable {α : Type} [AlgebraicField α] [Arithmetic α]

structure Sound (g : Supply) (Q : Expr α → Prop) (F : Found α) : Prop where
  values : F.values = (List.range F.size).map fun n => sym (g.name n)
  nodup : F.keys.Nodup
  keys : ∀ k ∈ F.keys, Q k

def Consistent (F : Found α) (ρ : Expr α → α) : Prop := ∀ x ∈ F.entries, ρ x.2 = denote ρ x.1

def reads (F : Found α) (e : Expr α) : Leaves α :=
  {i | i ∈ e.inputs ∨ ∃ k, (k, i) ∈ F.entries ∧ ∀ j ∈ k.inputs, j ∈ e.inputs}

structure Stands (F : Found α) (e e' : Expr α) : Prop where
  value : ∀ ρ, Consistent F ρ → denote ρ e' = denote ρ e
  within : Within (reads F e) e'
  canonical : Canonical e'

structure Remains (F : Found α) (e : Expr α) (x : Part α) : Prop where
  stands : Stands F e x.1
  whole : x.2 = true → ∀ i ∈ x.1.inputs, i ∈ e.inputs

section Stands

variable {F F' : Found α} {e e' : Expr α}

theorem Consistent.anti {ρ : Expr α → α} (hF : F.entries <+: F'.entries)
    (h : Consistent F' ρ) : Consistent F ρ := fun x hx => h x (hF.subset hx)

omit [AlgebraicField α] in
theorem reads_mono (hF : F.entries <+: F'.entries) {a : Expr α}
    (ha : ∀ i ∈ a.inputs, i ∈ e.inputs) : reads F a ⊆ reads F' e := by
  rintro i (hi | ⟨k, hk, hsub⟩)
  · exact .inl (ha i hi)
  · exact .inr ⟨k, hF.subset hk, fun j hj => ha j (hsub j hj)⟩

theorem Stands.mono (hF : F.entries <+: F'.entries) (h : Stands F e e') : Stands F' e e' :=
  ⟨fun ρ hρ => h.value ρ (hρ.anti hF),
    h.within.mono fun _ _ hi => reads_mono hF (fun _ => id) hi, h.canonical⟩

theorem Remains.mono {x : Part α} (hF : F.entries <+: F'.entries) (h : Remains F e x) :
    Remains F' e x := ⟨h.stands.mono hF, h.whole⟩

theorem Stands.refl (hc : Canonical e) (hu : Unary e) : Stands F e e :=
  ⟨fun _ _ => rfl, ⟨hu, fun _ => .inl⟩, hc⟩

theorem Stands.trans {m : Expr α} (h : Stands F e m) (hm : ∀ i ∈ m.inputs, i ∈ e.inputs)
    (h' : Stands F m e') : Stands F e e' :=
  ⟨fun ρ hρ => (h'.value ρ hρ).trans (h.value ρ hρ),
    h'.within.mono fun _ _ hi => reads_mono List.prefix_rfl hm hi, h'.canonical⟩

omit [AlgebraicField α] in
theorem within_reads_arg {a : Expr α} (ha : a ∈ e.args) (h : Within (reads F a) e') :
    Within (reads F e) e' :=
  h.mono fun _ _ hi =>
    reads_mono List.prefix_rfl (fun _ hj => mem_inputs_args ⟨a, ha, hj⟩) hi

variable [Exact α]

theorem stands_rebuild (hc : Canonical e) (hu : Unary e) (hleaf : e.isLeaf = false)
    {es : List (Expr α)} (h : List.Forall₂ (fun a a' => Stands F a a') e.args es) :
    Stands F e (rebuild e es) := by
  have hlen := h.length_eq.symm
  have hmem := forall₂_mem_right h
  refine ⟨fun ρ hρ => ?_, ?_, ?_⟩
  · have hmap : es.map (denote ρ) = e.args.map (denote ρ) := by
      clear hlen hmem hc hu hleaf
      generalize e.args = as at h
      induction h with
      | nil => rfl
      | cons ha _ ih => rw [List.map_cons, List.map_cons, ha.value ρ hρ, ih]
    rw [denote_rebuild ρ hleaf hlen, denote_of_not_isInput (isInput_of_isLeaf hleaf), hmap]
  · refine (hereditary_within _).rebuild ⟨hu, fun i hi => .inl hi⟩ hlen fun c hc => ?_
    obtain ⟨a, ha, hac⟩ := hmem c hc
    exact within_reads_arg ha hac.within
  · refine canonical_rebuild hc fun c hc => ?_
    obtain ⟨a, ha, hac⟩ := hmem c hc
    exact hac.canonical

end Stands

section Regroup

variable {e : Expr α} (hac : e.isSum = true ∨ e.isProduct = true)

include hac

theorem combine_perm {us vs : List α} (h : us.Perm vs) : combine e us = combine e vs := by
  rcases hac with hsum | hprod
  · cases e <;> simp_all [isSum, combine, h.sum_eq]
  · cases e <;> simp_all [isProduct, combine, h.prod_eq]

theorem combine_append (us vs : List α) :
    combine e (us ++ vs) = combine e (us ++ [combine e vs]) := by
  rcases hac with hsum | hprod
  · cases e <;> simp_all [isSum, combine]
  · cases e <;> simp_all [isProduct, combine]

theorem denote_regroup [Exact α] (ρ : Expr α → α) (es : List (Expr α)) :
    denote ρ (rebuild e es) = combine e (es.map (denote ρ)) := by
  rcases hac with hsum | hprod
  · obtain ⟨args, rfl⟩ : ∃ args, e = add args := by cases e <;> simp_all [isSum]
    exact denote_sum ρ es
  · obtain ⟨args, rfl⟩ : ∃ args, e = mul args := by cases e <;> simp_all [isProduct]
    exact denote_product ρ es

omit [AlgebraicField α] in
theorem hereditary_regroup {P : Expr α → Prop} (hP : Hereditary P) {es : List (Expr α)}
    (h : ∀ c ∈ es, P c) : P (rebuild e es) := by
  rcases hac with hsum | hprod
  · obtain ⟨args, rfl⟩ : ∃ args, e = add args := by cases e <;> simp_all [isSum]
    exact hP.sum h
  · obtain ⟨args, rfl⟩ : ∃ args, e = mul args := by cases e <;> simp_all [isProduct]
    exact hP.product h

theorem stands_regroup [Exact α] {F : Found α} {es : List (Expr α)}
    (hval : ∀ ρ, Consistent F ρ → combine e (es.map (denote ρ)) = denote ρ e)
    (hes : ∀ c ∈ es, Within (reads F e) c ∧ Canonical c) : Stands F e (rebuild e es) where
  value ρ hρ := (denote_regroup hac ρ es).trans (hval ρ hρ)
  within := hereditary_regroup hac (hereditary_within _) fun c hc => (hes c hc).1
  canonical := hereditary_regroup hac hereditary_canonical fun c hc => (hes c hc).2

theorem combine_filter (d : Expr α → α) {parts : List (Part α)} :
    combine e (((parts.filter (!·.2)).map (·.1)).map d ++ ((parts.filter (·.2)).map (·.1)).map d) =
      combine e (parts.map fun x => d x.1) := by
  refine combine_perm hac ?_
  have hsplit := (List.filter_append_perm (fun x : Part α => x.2) parts).map fun x => d x.1
  rw [List.map_append] at hsplit
  rw [List.map_map, List.map_map]
  exact List.perm_append_comm.trans hsplit

end Regroup

def Yields (I : Found α → Prop) (F : Found α) {β : Type} (x : StateM (Found α) β)
    (post : Found α → β → Prop) : Prop :=
  I F → I (x.run F).2 ∧ F.entries <+: (x.run F).2.entries ∧ post (x.run F).2 (x.run F).1

section Yields

variable {I : Found α → Prop} {F : Found α} {β γ δ : Type}

omit [AlgebraicField α] in
theorem Yields.pure {b : β} {post : Found α → β → Prop} (h : post F b) :
    Yields I F (Pure.pure b) post := fun hs => ⟨hs, List.prefix_rfl, h⟩

omit [AlgebraicField α] in
theorem Yields.bind {x : StateM (Found α) β} {f : β → StateM (Found α) γ}
    {mid : Found α → β → Prop} {post : Found α → γ → Prop} (hx : Yields I F x mid)
    (hf : ∀ F' b, F.entries <+: F'.entries → mid F' b → Yields I F' (f b) post) :
    Yields I F (x >>= f) post := by
  intro hs
  obtain ⟨hs₁, hF₁, hmid⟩ := hx hs
  obtain ⟨hs₂, hF₂, hpost⟩ := hf _ _ hF₁ hmid hs₁
  exact ⟨hs₂, hF₁.trans hF₂, hpost⟩

omit [AlgebraicField α] in
theorem Yields.mapM_found {R : δ → β → Prop} {f : β → StateM (Found α) γ}
    {P : δ → Found α → γ → Prop} {U : Nat → γ → Prop} {ds : List δ} {bs : List β}
    (hmono : ∀ d F F' c, F.entries <+: F'.entries → P d F c → P d F' c)
    (hR : List.Forall₂ R ds bs)
    (hf : ∀ d b, R d b → ∀ F', F.entries <+: F'.entries → Yields I F' (f b) fun F'' c =>
      P d F'' c ∧ ∀ n, F'.size ≤ n → n < F''.size → U n c) :
    Yields I F (bs.mapM f) fun F' cs => List.Forall₂ (fun d c => P d F' c) ds cs ∧
      ∀ n, F.size ≤ n → n < F'.size → ∃ c ∈ cs, U n c := by
  induction hR generalizing F with
  | nil => exact .pure ⟨.nil, fun n hle hlt => absurd hlt (Nat.not_lt.2 hle)⟩
  | cons hdb _ ih =>
    rw [List.mapM_cons]
    refine (hf _ _ hdb F List.prefix_rfl).bind fun F₁ c hF₁ hc => ?_
    refine (ih fun d b hdb F' hF' => hf d b hdb F' (hF₁.trans hF')).bind fun F₂ cs hF₂ hcs => ?_
    refine .pure ⟨.cons (hmono _ _ _ _ hF₂ hc.1) hcs.1, fun n hle hlt => ?_⟩
    by_cases hn : n < F₁.size
    · exact ⟨c, List.mem_cons_self, hc.2 n hle hn⟩
    · obtain ⟨c', hc', hU⟩ := hcs.2 n (Nat.not_lt.1 hn) hlt
      exact ⟨c', List.mem_cons_of_mem c hc', hU⟩

omit [AlgebraicField α] in
theorem Yields.mono {x : StateM (Found α) β} {post post' : Found α → β → Prop}
    (hx : Yields I F x post) (h : ∀ F' b, post F' b → post' F' b) : Yields I F x post' := fun hs =>
  have hrun := hx hs
  ⟨hrun.1, hrun.2.1, h _ _ hrun.2.2⟩

omit [AlgebraicField α] in
theorem Yields.mapM {R : δ → β → Prop} {f : β → StateM (Found α) γ}
    {P : δ → Found α → γ → Prop} {ds : List δ} {bs : List β}
    (hmono : ∀ d F F' c, F.entries <+: F'.entries → P d F c → P d F' c)
    (hR : List.Forall₂ R ds bs)
    (hf : ∀ d b, R d b → ∀ F', F.entries <+: F'.entries → Yields I F' (f b) (P d)) :
    Yields I F (bs.mapM f) fun F' cs => List.Forall₂ (fun d c => P d F' c) ds cs :=
  (mapM_found (U := fun _ _ => True) hmono hR fun d b hdb F' hF =>
    (hf d b hdb F' hF).mono fun _ _ h => ⟨h, fun _ _ _ => trivial⟩).mono fun _ _ h => h.1

end Yields

section Node

variable {g : Supply} {Q : Expr α → Prop} {F : Found α} {p : Policy α}

omit [AlgebraicField α] in
theorem run_extract_of_some {fresh : Nat → String} {k t : Expr α} (h : F.get? k = some t) :
    (extract fresh k).run F = (t, F) := by
  simp only [extract, StateT.run, bind, StateT.bind, get, getThe, MonadStateOf.get, StateT.get,
    pure, h]
  rfl

omit [AlgebraicField α] in
theorem run_extract_of_none {fresh : Nat → String} {k : Expr α} (h : F.get? k = none) :
    (extract fresh k).run F = (sym (fresh F.size), F.insert k (sym (fresh F.size))) := by
  simp only [extract, StateT.run, bind, StateT.bind, get, getThe, MonadStateOf.get, StateT.get,
    pure, h]
  rfl

omit [AlgebraicField α] in
theorem entries_insert {k t : Expr α} (h : F.get? k = none) :
    (F.insert k t).entries = F.entries ++ [(k, t)] :=
  Table.put_of_find?_eq_none t h

def Numbered (fresh : Nat → String) (F : Found α) : Prop :=
  F.values = (List.range F.size).map fun n => sym (fresh n)

omit [AlgebraicField α] in
theorem Numbered.insert {fresh : Nat → String} {k : Expr α} (h : Numbered fresh F)
    (hk : F.get? k = none) : Numbered fresh (F.insert k (sym (fresh F.size))) := by
  have hins := entries_insert (t := sym (fresh F.size)) hk
  show (F.insert k (sym (fresh F.size))).entries.map (·.2) =
    (List.range (F.insert k (sym (fresh F.size))).entries.length).map fun n => sym (fresh n)
  rw [hins, List.map_append, List.length_append, List.length_singleton, List.range_succ,
    List.map_append]
  exact congrArg (· ++ [sym (fresh F.size)]) h

theorem stands_of_mem {k : Expr α} {s : String} (h : (k, sym s) ∈ F.entries) :
    Stands F k (sym s) :=
  ⟨fun _ hρ => hρ _ h, within_of_isInput rfl (.inr ⟨k, h, fun _ => id⟩), .sym s⟩

theorem extract_yields [Exact α] {k : Expr α} (hQ : Q k) :
    Yields (Sound g Q) F (extract g.name k) fun F' t => Stands F' k t := by
  intro hs
  cases hget : F.get? k with
  | some t =>
    have hmem := Table.mem_of_get? hget
    obtain ⟨n, -, rfl⟩ : ∃ n ∈ List.range F.size, sym (g.name n) = t :=
      List.mem_map.1 (hs.values ▸ List.mem_map.2 ⟨_, hmem, rfl⟩)
    rw [run_extract_of_some hget]
    exact ⟨hs, List.prefix_rfl, stands_of_mem hmem⟩
  | none =>
    have hins := entries_insert (t := sym (g.name F.size)) hget
    rw [run_extract_of_none hget]
    refine ⟨⟨Numbered.insert hs.values hget, ?_, ?_⟩, ?_, ?_⟩
    · exact Table.nodup_keys_insert hs.nodup _ _
    · intro k' hk'
      rw [Table.keys, hins, List.map_append] at hk'
      rcases List.mem_append.1 hk' with hk' | hk'
      · exact hs.keys k' hk'
      · exact List.mem_singleton.1 hk' ▸ hQ
    · show F.entries <+: (F.insert k (sym (g.name F.size))).entries
      rw [hins]
      exact List.prefix_append _ _
    · refine stands_of_mem ?_
      rw [hins]
      exact List.mem_append_right _ List.mem_cons_self

theorem extract_part [Exact α] {e m : Expr α} (hQ : Q m) (h : Stands F e m)
    (hm : ∀ i ∈ m.inputs, i ∈ e.inputs) :
    Yields (Sound g Q) F (extract g.name m) fun F' t => Stands F' e t := by
  intro hs
  obtain ⟨hs', hF, hstands⟩ := extract_yields hQ hs
  exact ⟨hs', hF, (h.mono hF).trans hm hstands⟩

theorem extractIf_yields [Exact α] {e m : Expr α} (hQ : Q m) (h : Stands F e m)
    (hm : ∀ i ∈ m.inputs, i ∈ e.inputs) :
    Yields (Sound g Q) F (extractIf p g.name m) fun F' t => Stands F' e t := by
  unfold extractIf
  split
  · exact extract_part hQ h hm
  · exact .pure h

def Allows (Q : Expr α → Prop) (e : Expr α) : Prop :=
  ∀ k, Canonical k → Within {i | i ∈ e.inputs} k → Q k

omit [AlgebraicField α] in
theorem Allows.arg {e a : Expr α} (h : Allows Q e) (ha : a ∈ e.args) : Allows Q a :=
  fun k hc hw => h k hc (hw.mono fun _ _ hi => mem_inputs_args ⟨a, ha, hi⟩)

theorem Remains.within {e a : Expr α} {x : Part α} (ha : a ∈ e.args) (h : Remains F a x)
    (hx : x.2 = true) : Within {i | i ∈ e.inputs} x.1 :=
  ⟨h.stands.within.unary, fun i hi => mem_inputs_args ⟨a, ha, h.whole hx i hi⟩⟩

theorem growOrExtract_yields [Exact α] {root : Bool} {e w : Expr α} (hQ : Allows Q e)
    (h : Stands F e w) (hw : ∀ i ∈ w.inputs, i ∈ e.inputs) :
    Yields (Sound g Q) F (growOrExtract p g.name root w) fun F' x => Remains F' e x := by
  unfold growOrExtract
  split
  · refine (extract_part (hQ w h.canonical ⟨h.within.unary, hw⟩) h hw).bind fun F' t _ ht => ?_
    exact .pure ⟨ht, by simp⟩
  · exact .pure ⟨h, fun _ => hw⟩

theorem extractOperands_yields [Exact α] {e : Expr α} {parts : List (Part α)} (hc : Canonical e)
    (hu : Unary e) (hleaf : e.isLeaf = false) (hQ : Allows Q e)
    (hparts : List.Forall₂ (fun a x => a ∈ e.args ∧ Remains F a x) e.args parts) :
    Yields (Sound g Q) F (extractOperands p g.name e parts) fun F' e' => Stands F' e e' := by
  refine (Yields.mapM (P := fun a F' c => Stands F' a c)
    (fun _ _ _ _ hF h => h.mono hF) hparts fun a x hax F' hF => ?_).bind
      fun F' es _ hes => .pure (stands_rebuild hc hu hleaf hes)
  have hx := hax.2.mono hF
  split
  · rename_i hflag
    exact extractIf_yields (hQ x.1 hx.stands.canonical (hx.within hax.1 hflag)) hx.stands
      (hx.whole hflag)
  · exact .pure hx.stands

theorem map_denote_parts {ρ : Expr α → α} (hρ : Consistent F ρ) {as : List (Expr α)}
    {parts : List (Part α)} {R : Expr α → Part α → Prop}
    (h : List.Forall₂ (fun a x => R a x ∧ Remains F a x) as parts) :
    parts.map (fun x => denote ρ x.1) = as.map (denote ρ) := by
  induction h with
  | nil => rfl
  | cons hax _ ih => rw [List.map_cons, List.map_cons, hax.2.stands.value ρ hρ, ih]

theorem splitOperands_yields [Exact α] {e : Expr α} {parts : List (Part α)}
    (hac : e.isSum = true ∨ e.isProduct = true) (hQ : Allows Q e)
    (hparts : List.Forall₂ (fun a x => a ∈ e.args ∧ Remains F a x) e.args parts) :
    Yields (Sound g Q) F (splitOperands p g.name e parts) fun F' e' => Stands F' e e' := by
  have hinput : e.isInput = false := by
    rcases hac with h | h <;> cases e <;> simp_all [isSum, isProduct, isInput, isSymbol, isAccess]
  have hother : ∀ {F' : Found α}, F.entries <+: F'.entries →
      ∀ c ∈ (parts.filter (!·.2)).map (·.1), Within (reads F' e) c ∧ Canonical c := by
    intro F' hF c hc
    obtain ⟨x, hx, rfl⟩ := List.mem_map.1 hc
    obtain ⟨a, -, ha, hax⟩ := forall₂_mem_right hparts x (List.mem_filter.1 hx).1
    exact ⟨within_reads_arg ha (hax.stands.mono hF).within, hax.stands.canonical⟩
  have hmatch : ∀ m ∈ (parts.filter (·.2)).map (·.1), Within {i | i ∈ e.inputs} m ∧ Canonical m := by
    intro m hm
    obtain ⟨x, hx, rfl⟩ := List.mem_map.1 hm
    obtain ⟨hmem, hflag⟩ := List.mem_filter.1 hx
    obtain ⟨a, -, ha, hax⟩ := forall₂_mem_right hparts x hmem
    exact ⟨hax.within ha hflag, hax.stands.canonical⟩
  -- Operands that go into a temporary come last, which a sum or a product does not see.
  have hvalue : ∀ {F' : Found α} {ρ : Expr α → α}, F.entries <+: F'.entries → Consistent F' ρ →
      combine e (((parts.filter (!·.2)).map (·.1)).map (denote ρ) ++
        ((parts.filter (·.2)).map (·.1)).map (denote ρ)) = denote ρ e := by
    intro F' ρ hF hρ
    rw [combine_filter hac, map_denote_parts (hρ.anti hF) hparts,
      denote_of_not_isInput hinput]
  simp only [splitOperands]
  split
  · have hgroup := hereditary_regroup hac (hereditary_within _) fun c hc => (hmatch c hc).1
    have hcan := hereditary_regroup hac hereditary_canonical fun c hc => (hmatch c hc).2
    refine (extract_yields (hQ _ hcan hgroup)).bind fun F' t hF ht => .pure ?_
    refine stands_regroup hac (fun ρ hρ => ?_) fun c hc => ?_
    · rw [List.map_append, List.map_singleton, ht.value ρ hρ, denote_regroup hac, ← combine_append hac,
        hvalue hF hρ]
    · rcases List.mem_append.1 hc with hc | hc
      · exact hother hF c hc
      · obtain rfl := List.mem_singleton.1 hc
        exact ⟨ht.within.mono fun _ _ hi => reads_mono List.prefix_rfl hgroup.inputs hi, ht.canonical⟩
  · have hrefl : List.Forall₂ (fun m m' : Expr α => m = m' ∧ Within {i | i ∈ e.inputs} m ∧ Canonical m)
        ((parts.filter (·.2)).map (·.1)) ((parts.filter (·.2)).map (·.1)) :=
      List.forall₂_same.2 fun m hm => ⟨rfl, hmatch m hm⟩
    refine (Yields.mapM (P := fun m F' c => (∀ i ∈ m.inputs, i ∈ e.inputs) ∧ Stands F' m c)
      (fun _ _ _ _ hF h => ⟨h.1, h.2.mono hF⟩) hrefl fun m m' hm F' hF => ?_).bind
        fun F' ms hF hms => .pure ?_
    · obtain ⟨rfl, hw, hcan⟩ := hm
      intro hs
      obtain ⟨hs', hF', hstands⟩ :=
        extractIf_yields (p := p) (hQ m hcan hw) (.refl hcan hw.unary) (fun _ => id) hs
      exact ⟨hs', hF', hw.inputs, hstands⟩
    · have hmap : ∀ ρ, Consistent F' ρ →
          ms.map (denote ρ) = ((parts.filter (·.2)).map (·.1)).map (denote ρ) := by
        intro ρ hρ
        clear hrefl hmatch
        generalize (parts.filter (·.2)).map (·.1) = ns at hms
        induction hms with
        | nil => rfl
        | cons hmc _ ih => rw [List.map_cons, List.map_cons, hmc.2.value ρ hρ, ih]
      refine stands_regroup hac (fun ρ hρ => ?_) fun c hc => ?_
      · rw [List.map_append, hmap ρ hρ, hvalue hF hρ]
      · rcases List.mem_append.1 hc with hc | hc
        · exact hother hF c hc
        · obtain ⟨m, -, hsub, hstands⟩ := forall₂_mem_right hms c hc
          exact ⟨hstands.within.mono fun _ _ hi => reads_mono List.prefix_rfl hsub hi,
            hstands.canonical⟩

theorem node_yields [Exact α] {root : Bool} {e : Expr α} {parts : List (Part α)}
    (hc : Canonical e) (hu : Unary e) (hQ : Allows Q e)
    (hparts : List.Forall₂ (fun a x => a ∈ e.args ∧ Remains F a x) e.args parts) :
    Yields (Sound g Q) F (node p g.name root e parts) fun F' x => Remains F' e x := by
  simp only [node]
  split
  · exact .pure ⟨.refl hc hu, fun _ _ => id⟩
  · rename_i hne
    have hleaf : e.isLeaf = false := by
      refine isLeaf_of_args fun hempty => hne ?_
      rw [List.isEmpty_iff] at hempty ⊢
      have hlen := hparts.length_eq
      rw [hempty] at hlen
      exact List.eq_nil_of_length_eq_zero hlen.symm
    split
    · rename_i hall
      have hflags := List.all_eq_true.1 (Bool.and_eq_true_iff.1 hall).1
      have hwhole : Within {i | i ∈ e.inputs} (rebuild e (parts.map (·.1))) := by
        refine (hereditary_within _).rebuild ⟨hu, fun _ => id⟩
          ((List.length_map _).trans hparts.length_eq.symm) fun c hc => ?_
        obtain ⟨x, hx, rfl⟩ := List.mem_map.1 hc
        obtain ⟨a, -, ha, hax⟩ := forall₂_mem_right hparts x hx
        exact hax.within ha (hflags x hx)
      refine growOrExtract_yields hQ (stands_rebuild hc hu hleaf ?_) hwhole.inputs
      rw [List.forall₂_map_right_iff]
      exact hparts.imp fun _ _ h => h.2.stands
    · split
      · exact (splitOperands_yields (.inl rfl) hQ hparts).bind fun F' e' _ h => .pure ⟨h, by simp⟩
      · exact (splitOperands_yields (.inr rfl) hQ hparts).bind fun F' e' _ h => .pure ⟨h, by simp⟩
      · exact (extractOperands_yields hc hu hleaf hQ hparts).bind fun F' e' _ h =>
          .pure ⟨h, by simp⟩

omit [AlgebraicField α] in
theorem run_eq (p : Policy α) (fresh : Nat → String) (e : Expr α) :
    run p fresh e = e.args.mapM (run p fresh) >>= node p fresh false e := by
  rw [run, fold_eq, List.mapM_map]
  rfl

theorem mapM_run_yields [Exact α] {e : Expr α} {F : Found α}
    (h : ∀ a ∈ e.args, ∀ F : Found α,
      Yields (Sound g Q) F (run p g.name a) fun F' x => Remains F' a x) :
    Yields (Sound g Q) F (e.args.mapM (run p g.name)) fun F' parts =>
      List.Forall₂ (fun a x => a ∈ e.args ∧ Remains F' a x) e.args parts := by
  have hrefl : List.Forall₂ (fun a b : Expr α => a = b ∧ a ∈ e.args) e.args e.args :=
    List.forall₂_same.2 fun a ha => ⟨rfl, ha⟩
  refine Yields.mapM (P := fun a F' x => a ∈ e.args ∧ Remains F' a x)
    (fun _ _ _ _ hF hax => ⟨hax.1, hax.2.mono hF⟩) hrefl fun a b hab F' _ => ?_
  obtain ⟨rfl, ha⟩ := hab
  intro hs
  obtain ⟨hs', hF, hx⟩ := h a ha F' hs
  exact ⟨hs', hF, ha, hx⟩

theorem run_yields [Exact α] {e : Expr α} (hc : Canonical e) (hu : Unary e) (hQ : Allows Q e)
    (F : Found α) : Yields (Sound g Q) F (run p g.name e) fun F' x => Remains F' e x := by
  induction e using inductArgs generalizing F with
  | node e ih =>
    rw [run_eq]
    refine (mapM_run_yields fun a ha => ih a ha (hc.args a ha) (hu.args a ha) (hQ.arg ha)).bind ?_
    exact fun F' parts _ hparts => node_yields hc hu hQ hparts

theorem runRoot_yields [Exact α] {e : Expr α} (hc : Canonical e) (hu : Unary e) (hQ : Allows Q e)
    (F : Found α) : Yields (Sound g Q) F (runRoot p g.name e) fun F' e' => Stands F' e e' := by
  refine (mapM_run_yields fun a ha =>
    run_yields (hc.args a ha) (hu.args a ha) (hQ.arg ha)).bind fun F₁ parts _ hparts => ?_
  exact (node_yields hc hu hQ hparts).bind fun F₂ x _ hx => .pure hx.stands

end Node

def extractAll (p : Policy α) (fresh : Nat → String) (as : List (Assignment α)) :
    StateM (Found α) (List (Assignment α)) :=
  as.mapM fun a => do return a.withRhs (← runRoot p fresh a.rhs)

def Found.defs (F : Found α) : List (Assignment α) :=
  F.entries.map fun x => { lhs := x.2, rhs := x.1 }

omit [AlgebraicField α] in
theorem apply_eq (p : Policy α) (fresh : Nat → String) (as : List (Assignment α)) :
    apply p fresh as =
      ⟨schedule (Found.defs ((extractAll p fresh as).run .empty).2)
          ((extractAll p fresh as).run .empty).1,
        Found.defs ((extractAll p fresh as).run .empty).2⟩ := rfl

structure Key (g : Supply) (as : List (Assignment α)) (k : Expr α) : Prop where
  canonical : Canonical k
  within : Within g.known k
  origin : ∃ a ∈ as, ∀ i ∈ k.inputs, i ∈ a.rhs.inputs

theorem extractAll_yields [Exact α] {p : Policy α} {g : Supply} {as : List (Assignment α)}
    (ht : ∀ a ∈ as, Tidy g a) :
    Yields (Sound g (Key g as)) .empty (extractAll p g.name as) fun F' as' =>
      List.Forall₂ (fun a a' => (a ∈ as ∧ a' = a.withRhs a'.rhs) ∧ Stands F' a.rhs a'.rhs) as as' := by
  have hrefl : List.Forall₂ (fun a b : Assignment α => a = b ∧ a ∈ as) as as :=
    List.forall₂_same.2 fun a ha => ⟨rfl, ha⟩
  refine Yields.mapM (P := fun a F' a' => (a ∈ as ∧ a' = a.withRhs a'.rhs) ∧ Stands F' a.rhs a'.rhs)
    (fun _ _ _ _ hF h => ⟨h.1, h.2.mono hF⟩) hrefl fun a b hab F' _ => ?_
  obtain ⟨rfl, ha⟩ := hab
  have hQ : Allows (Key g as) a.rhs := fun k hc hw =>
    ⟨hc, hw.mono fun i _ hi => (ht a ha).within.inputs i hi, a, ha, hw.inputs⟩
  exact (runRoot_yields (ht a ha).canonical (ht a ha).within.unary hQ F').bind fun F₁ e _ he =>
    .pure ⟨⟨ha, rfl⟩, he⟩

section Outlined

variable {g : Supply} {as : List (Assignment α)} {F : Found α}

def reach (F : Found α) (t : String) : Leaves α := {i | ∃ k, (k, sym t) ∈ F.entries ∧ i ∈ k.inputs}

omit [AlgebraicField α] in
theorem mem_defs {d : Assignment α} :
    d ∈ Found.defs F ↔ ∃ k t, (k, t) ∈ F.entries ∧ d = { lhs := t, rhs := k } := by
  rw [Found.defs, List.mem_map]
  constructor
  · rintro ⟨⟨k, t⟩, hx, rfl⟩
    exact ⟨k, t, hx, rfl⟩
  · rintro ⟨k, t, hx, rfl⟩
    exact ⟨(k, t), hx, rfl⟩

omit [AlgebraicField α] in
theorem temp_iff {t : String} : Temp (Found.defs F) t ↔ ∃ k, (k, sym t) ∈ F.entries := by
  constructor
  · rintro ⟨d, hd, hl⟩
    obtain ⟨k, t', hx, rfl⟩ := mem_defs.1 hd
    exact ⟨k, (show t' = sym t from hl) ▸ hx⟩
  · rintro ⟨k, hx⟩
    exact ⟨_, mem_defs.2 ⟨k, _, hx, rfl⟩, rfl⟩

omit [AlgebraicField α] in
theorem Sound.getElem {Q : Expr α → Prop} (hs : Sound g Q F) {k t : Expr α}
    (h : (k, t) ∈ F.entries) : ∃ n < F.size, t = sym (g.name n) ∧ F.keys[n]? = some k := by
  obtain ⟨n, hn⟩ := List.mem_iff_getElem?.1 h
  have hlt : n < F.entries.length := (List.getElem?_eq_some_iff.1 hn).1
  have hv := congrArg (·[n]?) hs.values
  simp only [Table.values, List.getElem?_map, hn, Option.map_some, List.getElem?_range hlt,
    Table.size, Option.some.injEq] at hv
  exact ⟨n, hlt, hv, by rw [Table.keys, List.getElem?_map, hn, Option.map_some]⟩

omit [AlgebraicField α] in
theorem Sound.unique {Q : Expr α → Prop} (hs : Sound g Q F) {k k' t : Expr α}
    (h : (k, t) ∈ F.entries) (h' : (k', t) ∈ F.entries) : k = k' := by
  obtain ⟨n, -, rfl, hk⟩ := hs.getElem h
  obtain ⟨m, -, hm, hk'⟩ := hs.getElem h'
  obtain rfl := g.name_injective (sym.inj hm)
  exact Option.some.inj (hk ▸ hk')

omit [AlgebraicField α] in
theorem Sound.mem_keys {Q : Expr α → Prop} (hs : Sound g Q F) {k t : Expr α}
    (h : (k, t) ∈ F.entries) : Q k := hs.keys k (List.mem_map.2 ⟨_, h, rfl⟩)

omit [AlgebraicField α] in
theorem Sound.fresh {Q : Expr α → Prop} (hs : Sound g Q F) (hroom : g.Room F.size) {k t : Expr α}
    (h : (k, t) ∈ F.entries) : t ∉ g.known := by
  obtain ⟨n, hn, rfl, -⟩ := hs.getElem h
  exact fun hmem => hmem n (hroom.anti hn) rfl

omit [AlgebraicField α] in
theorem Sound.acyclic (hs : Sound g (Key g as) F) (hroom : g.Room F.size) :
    Acyclic (Found.defs F) (reach F) fun _ => 0 where
  scalar d hd := by
    obtain ⟨k, t, hx, rfl⟩ := mem_defs.1 hd
    obtain ⟨n, -, rfl, -⟩ := hs.getElem hx
    rfl
  nodup := by
    have hmap : (Found.defs F).map (·.lhs) = F.values := by
      rw [Found.defs, List.map_map, Table.values]
      rfl
    rw [hmap, hs.values]
    exact List.nodup_range.map fun m n hmn => g.name_injective (sym.inj hmn)
  deep d hd s hl := by
    obtain ⟨k, t, hx, rfl⟩ := mem_defs.1 hd
    obtain rfl : t = sym s := hl
    refine ⟨fun t' ht' htemp => ?_, fun i hi _ => ⟨k, hx, hi⟩⟩
    obtain ⟨k', hx'⟩ := temp_iff.1 htemp
    exact absurd ((hs.mem_keys hx).within.inputs _ ht') (hs.fresh hroom hx')
  lighter d hd s t hl ht htemp := by
    obtain ⟨k, t', hx, rfl⟩ := mem_defs.1 hd
    obtain ⟨k', hx'⟩ := temp_iff.1 htemp
    exact absurd ((hs.mem_keys hx).within.inputs _ ht) (hs.fresh hroom hx')

theorem Sound.outlined (hs : Sound g (Key g as) F) (hroom : g.Room F.size)
    {as' : List (Assignment α)} (ht : ∀ a ∈ as, Tidy g a)
    (h : List.Forall₂ (fun a a' => (a ∈ as ∧ a' = a.withRhs a'.rhs) ∧ Stands F a.rhs a'.rhs) as as') :
    Outlined g as as' (Found.defs F) (reach F) fun _ => 0 where
  acyclic := hs.acyclic hroom
  assignments := by
    refine h.imp fun a a' haa' => ?_
    obtain ⟨⟨ha, heq⟩, hstands⟩ := haa'
    refine ⟨by rw [heq]; rfl, by rw [heq]; rfl, fun t hmem htemp => ?_, fun i hi hnot => ?_⟩
    · obtain ⟨k, hx⟩ := temp_iff.1 htemp
      rcases hstands.within.inputs _ hmem with hin | ⟨k', hx', hsub⟩
      · exact absurd ((ht a ha).within.inputs _ hin) (hs.fresh hroom hx)
      · rintro i ⟨k'', hx'', hi⟩
        exact hsub i (hs.unique hx'' hx' ▸ hi)
    · rcases hstands.within.inputs i hi with hin | ⟨k, hx, -⟩
      · exact hin
      · obtain ⟨n, -, rfl, -⟩ := hs.getElem hx
        exact absurd (temp_iff.2 ⟨k, hx⟩) (hnot _ rfl)
  needed d hd t hmem htemp := by
    obtain ⟨k, t', hx, rfl⟩ := mem_defs.1 hd
    obtain ⟨k', hx'⟩ := temp_iff.1 htemp
    exact absurd ((hs.mem_keys hx).within.inputs _ hmem) (hs.fresh hroom hx')
  origin t htemp := by
    obtain ⟨k, hx⟩ := temp_iff.1 htemp
    obtain ⟨a, ha, hsub⟩ := (hs.mem_keys hx).origin
    refine ⟨a, ha, ?_⟩
    rintro i ⟨k', hx', hi⟩
    exact hsub i (hs.unique hx' hx ▸ hi)
  fresh t htemp := by
    obtain ⟨k, hx⟩ := temp_iff.1 htemp
    exact hs.fresh hroom hx

theorem Sound.consistent (hs : Sound g (Key g as) F) (hroom : g.Room F.size) (ρ : Expr α → α) :
    ∃ ρ' : Expr α → α, (∀ i ∈ g.known, ρ' i = ρ i) ∧ Consistent F ρ' := by
  let ρ' := g.extend ρ fun n => ((F.keys[n]?).map (denote ρ)).getD 0
  have hρ' : ∀ i ∈ g.known, ρ' i = ρ i := fun i hi => Supply.extend_of_mem_known hi
  refine ⟨ρ', hρ', ?_⟩
  rintro ⟨k, t⟩ hx
  obtain ⟨n, hn, rfl, hk⟩ := hs.getElem hx
  rw [denote_agree hρ' (hs.mem_keys hx).within]
  exact (g.extend_name ρ _ (hroom.anti hn)).trans (by simp [hk])

theorem apply_refines [Exact α] {p : Policy α} (ht : ∀ a ∈ as, Tidy g a)
    (hroom : g.Room (apply p g.name as).found.length) :
    Refines g (g.skip (apply p g.name as).found.length) as (apply p g.name as).assignments := by
  have hempty : Sound g (Key g as) .empty := ⟨rfl, List.nodup_nil, fun k hk => absurd hk List.not_mem_nil⟩
  obtain ⟨hs, -, h⟩ := extractAll_yields (p := p) ht hempty
  rw [apply_eq] at hroom ⊢
  set F := ((extractAll p g.name as).run .empty).2 with hF
  have hsize : (Found.defs F).length = F.size := List.length_map _
  have hroom : g.Room F.size := hsize ▸ hroom
  have htemp : ∀ {k t : Expr α}, (k, t) ∈ F.entries → t ∈ (g.skip (Found.defs F).length).known := by
    intro k t hx
    obtain ⟨n, hn, rfl, -⟩ := hs.getElem hx
    exact Supply.name_mem_known (hsize ▸ hn)
  have hknown := g.known_skip (α := α) (Found.defs F).length
  have houtlined := hs.outlined hroom ht h
  refine houtlined.refines ht hknown ?_ ?_ fun ρ => ?_
  · intro a' ha'
    obtain ⟨a, -, ⟨ha, heq⟩, hstands⟩ := forall₂_mem_right h a' ha'
    refine ⟨hstands.canonical, hstands.within.mono fun i _ hi => ?_, ?_,
      houtlined.pure (fun a ha => (ht a ha).pure) a' ha'⟩
    · rcases hi with hi | ⟨k, hx, -⟩
      · exact hknown ((ht a ha).within.inputs i hi)
      · exact htemp hx
    · rw [heq]
      exact hknown (ht a ha).target
  · intro d hd
    obtain ⟨k, t, hx, rfl⟩ := mem_defs.1 hd
    have hkey := hs.mem_keys hx
    exact ⟨hkey.canonical, hkey.within.mono fun _ _ hi => hknown hi, htemp hx,
      pureIncrement_of_plain rfl⟩
  · obtain ⟨ρ', hρ', hcons⟩ := hs.consistent hroom ρ
    refine ⟨ρ', hρ', fun d hd => ?_, h.imp fun a a' haa' => ?_⟩
    · obtain ⟨k, t, hx, rfl⟩ := mem_defs.1 hd
      obtain ⟨n, -, rfl, -⟩ := hs.getElem hx
      exact ⟨rfl, fun s hl => ⟨rfl, by rw [← hl]; exact hcons _ hx⟩⟩
    · rw [haa'.2.value ρ' hcons, denote_agree hρ' (ht a haa'.1.1).within]

end Outlined

end Stencil.Extraction
