import Stencil.Proofs.Execution.Tour

namespace Stencil.Nest

section Lists

variable {β γ : Type} {a : γ} {xs ys zs : List γ}

theorem append_eq_append_cons {ws : List γ} (h : ws ++ xs = ys ++ a :: zs) (ha : a ∉ ws) :
    ∃ us, ys = ws ++ us ∧ xs = us ++ a :: zs := by
  rcases List.append_eq_append_iff.1 h with ⟨us, hys, hxs⟩ | ⟨us, hws, hzs⟩
  · exact ⟨us, hys, hxs⟩
  · cases us with
    | nil => exact ⟨[], by rw [hws, List.append_nil, List.append_nil], hzs.symm⟩
    | cons b us =>
      rw [List.cons_append, List.cons.injEq] at hzs
      exact absurd (by simp [hws, hzs.1]) ha

theorem flatMap_eq_append_cons {f : β → List γ} {l : List β}
    (h : l.flatMap f = ys ++ a :: zs) :
    ∃ b ∈ l, ∃ us vs ws, ys = us ++ vs ∧ f b = vs ++ a :: ws := by
  induction l generalizing ys with
  | nil => simp at h
  | cons b l ih =>
    have hrest : ∀ us, l.flatMap f = us ++ a :: zs → ys = f b ++ us →
        ∃ b' ∈ b :: l, ∃ us vs ws, ys = us ++ vs ∧ f b' = vs ++ a :: ws := by
      rintro us hus rfl
      obtain ⟨b', hb', us', vs, ws, rfl, hf⟩ := ih hus
      exact ⟨b', List.mem_cons_of_mem b hb', f b ++ us', vs, ws, by simp, hf⟩
    rw [List.flatMap_cons] at h
    rcases List.append_eq_append_iff.1 h with ⟨us, hys, hxs⟩ | ⟨us, hws, hzs⟩
    · exact hrest us hxs hys
    · cases us with
      | nil => exact hrest [] hzs.symm (by simp [hws])
      | cons c us =>
        rw [List.cons_append, List.cons.injEq] at hzs
        exact ⟨b, List.mem_cons_self, [], ys, us, rfl, by rw [hws, hzs.1]⟩

theorem exists_suffix (p : γ → Prop) (xs : List γ) :
    ∃ ys zs, xs = ys ++ zs ∧ (∀ z ∈ zs, p z) ∧ ∀ y ∈ ys.getLast?, ¬ p y := by
  induction xs using List.reverseRecOn with
  | nil => exact ⟨[], [], rfl, by simp, by simp⟩
  | append_singleton xs x ih =>
    by_cases hx : p x
    · obtain ⟨ys, zs, rfl, hzs, hys⟩ := ih
      exact ⟨ys, zs ++ [x], by simp, List.forall_mem_append.2 ⟨hzs, by simpa using hx⟩, hys⟩
    · exact ⟨xs ++ [x], [], by simp, by simp, by simpa using hx⟩

theorem exists_prefix (p : γ → Prop) (xs : List γ) :
    ∃ ys zs, xs = ys ++ zs ∧ (∀ y ∈ ys, p y) ∧ ∀ z ∈ zs.head?, ¬ p z := by
  induction xs with
  | nil => exact ⟨[], [], rfl, by simp, by simp⟩
  | cons x xs ih =>
    by_cases hx : p x
    · obtain ⟨ys, zs, rfl, hys, hzs⟩ := ih
      exact ⟨x :: ys, zs, rfl, List.forall_mem_cons.2 ⟨hx, hys⟩, hzs⟩
    · exact ⟨[], x :: xs, rfl, by simp, by simpa using hx⟩

end Lists

variable {α : Type} {bounds : Dimension → Option (Int × Int)} {ds : List Dimension}
  {n depth k : Nat} {c f : Cluster α} {cs xs ys : List (Cluster α)} {ws vs : List Int}

/-- Clusters that do not share a loop are visited one after the other. -/
theorem tour_append (h : ∀ x ∈ xs.getLast?, ∀ y ∈ ys.head?, level? depth x ≠ level? depth y) :
    tour bounds n depth (xs ++ ys) ws = tour bounds n depth xs ws ++ tour bounds n depth ys ws := by
  cases n with
  | zero => exact List.map_append
  | succ n =>
    have hgroups : groups depth (xs ++ ys) = groups depth xs ++ groups depth ys :=
      List.splitBy_append fun x hx y hy => beq_eq_false_iff_ne.2 (h x hx y hy)
    rw [tour, hgroups, List.flatMap_append, tour, tour]

theorem tour_same {i : Interval} (hc : c ∈ cs) (hlevel : ∀ x ∈ cs, level? depth x = some i)
    (hdir : ∀ x ∈ cs, x.space.directions = c.space.directions) :
    tour bounds (n + 1) depth cs ws =
      (values c i ((bounds i.dim).getD (0, 0))).flatMap fun v =>
        tour bounds n (depth + 1) cs (ws ++ [v]) := by
  have hchain : cs.IsChain fun x y => (level? depth x == level? depth y) = true := by
    refine (List.pairwise_of_forall_mem_list fun x hx y hy => ?_).isChain
    rw [hlevel x hx, hlevel y hy, beq_self_eq_true]
  cases cs with
  | nil => simp at hc
  | cons c₀ cs =>
    have hgroups : groups depth (c₀ :: cs) = [c₀ :: cs] :=
      List.splitBy_of_isChain (List.cons_ne_nil _ _) hchain
    have hdirection : c₀.space.direction i.dim = c.space.direction i.dim := by
      rw [IterationSpace.direction, IterationSpace.direction, hdir c₀ List.mem_cons_self]
    have hvalues : ∀ b, values c₀ i b = values c i b := fun b => by
      rw [values, values, hdirection]
    rw [tour, hgroups, List.flatMap_singleton]
    simp only [hlevel c₀ List.mem_cons_self, hvalues]

structure Uniform (ds : List Dimension) (c : Cluster α) (cs : List (Cluster α)) : Prop where
  dimensions : ∀ x ∈ cs, x.space.box.dimensions = ds
  directions : ∀ x ∈ cs, x.space.directions = c.space.directions

theorem Uniform.append (h : Uniform ds c (xs ++ ys)) : Uniform ds c xs ∧ Uniform ds c ys :=
  ⟨⟨(List.forall_mem_append.1 h.dimensions).1, (List.forall_mem_append.1 h.directions).1⟩,
    (List.forall_mem_append.1 h.dimensions).2, (List.forall_mem_append.1 h.directions).2⟩

theorem exists_of_mem_tour (hcs : Uniform ds c cs) (hdepth : depth + n = ds.length)
    {x : Cluster α} (h : (x, vs) ∈ tour bounds n depth cs ws) : x ∈ cs ∧ ∃ us, vs = ws ++ us := by
  obtain ⟨hmem, us, hus, -⟩ := (mem_tour hcs.dimensions hdepth).1 h
  exact ⟨hmem, us, hus⟩

theorem tour_group {i : Interval} {zs : List (Cluster α)} (hcs : Uniform ds c (xs ++ (ys ++ zs)))
    (hf : f ∈ ys) (hlevel : ∀ y ∈ ys, level? depth y = some i)
    (hlast : ∀ x ∈ xs.getLast?, level? depth x ≠ some i)
    (hfirst : ∀ z ∈ zs.head?, level? depth z ≠ some i) :
    tour bounds (n + 1) depth (xs ++ (ys ++ zs)) ws = tour bounds (n + 1) depth xs ws ++
      ((values f i ((bounds i.dim).getD (0, 0))).flatMap (fun v =>
        tour bounds n (depth + 1) ys (ws ++ [v])) ++ tour bounds (n + 1) depth zs ws) := by
  have hne : ys ≠ [] := List.ne_nil_of_mem hf
  have hdirections : ∀ y ∈ ys, y.space.directions = f.space.directions := fun y hy =>
    (hcs.directions y (by simp [hy])).trans (hcs.directions f (by simp [hf])).symm
  rw [tour_append, tour_append, tour_same hf hlevel hdirections]
  · intro x hx z hz
    rw [hlevel x (List.mem_of_getLast? hx)]
    exact (hfirst z hz).symm
  · intro x hx y hy
    rw [List.head?_append_of_ne_nil _ hne] at hy
    rw [hlevel y (List.mem_of_mem_head? hy)]
    exact hlast x hx

theorem level?_some (hcs : Uniform ds c cs) (hdepth : depth < ds.length) {x : Cluster α}
    (hx : x ∈ cs) : ∃ i, level? depth x = some i := by
  obtain ⟨i, -, -, hi, -⟩ := level?_eq_some (hcs.dimensions x hx) hdepth
  exact ⟨i, hi⟩

open Classical in
theorem filter_tour (hcs : Uniform ds c (xs ++ [c])) (hdepth : depth + n = ds.length)
    (hc : c ∉ xs) :
    (tour bounds n depth (xs ++ [c]) ws).filter (·.1 = c) = tour bounds n depth [c] ws := by
  induction n generalizing depth xs ws with
  | zero =>
    have hxs : (xs.map fun x => (x, ws)).filter (·.1 = c) = [] := by
      rw [List.filter_eq_nil_iff]
      rintro q hq
      obtain ⟨x, hx, rfl⟩ := List.mem_map.1 hq
      have hne : x ≠ c := fun hxc => hc (hxc ▸ hx)
      simpa using hne
    rw [tour, tour, List.map_append, List.filter_append, hxs]
    simp
  | succ n ih =>
    obtain ⟨i, hi⟩ := level?_some hcs (show depth < ds.length by omega)
      (List.mem_append_right xs (List.mem_singleton_self c))
    obtain ⟨xs₁, xs₂, rfl, hsame, hlast⟩ := exists_suffix (fun x => level? depth x = some i) xs
    rw [List.append_assoc] at hcs ⊢
    have hhead : ∀ x ∈ xs₂ ++ [c], level? depth x = some i :=
      List.forall_mem_append.2 ⟨hsame, List.forall_mem_singleton.2 hi⟩
    have hnone : (tour bounds (n + 1) depth xs₁ ws).filter (·.1 = c) = [] := by
      rw [List.filter_eq_nil_iff]
      rintro ⟨x, us⟩ hq
      have hx := (exists_of_mem_tour hcs.append.1 hdepth hq).1
      have hne : x ≠ c := fun hxc => hc (List.mem_append_left xs₂ (hxc ▸ hx))
      simpa using hne
    have hmem : c ∈ xs₂ ++ [c] := List.mem_append_right xs₂ (List.mem_singleton_self c)
    rw [tour_append, List.filter_append, hnone, List.nil_append,
      tour_same hmem hhead hcs.append.2.directions, tour_same (List.mem_singleton_self c)
        (List.forall_mem_singleton.2 hi) (List.forall_mem_singleton.2 rfl), List.filter_flatMap]
    · exact List.flatMap_congr fun v _ => ih hcs.append.2 (by omega) fun h =>
        hc (List.mem_append_right xs₁ h)
    · intro x hx y hy
      rw [hhead y (List.mem_of_mem_head? hy)]
      exact hlast x hx

def Precedes (k : Nat) (f c : Cluster α) (V : List (Cluster α × List Int)) : Prop :=
  ∀ V₁ vs V₂, V = V₁ ++ (c, vs) :: V₂ → ∃ A B, V₁ = A ++ B ∧
    (∀ q ∈ B, q.2.take k = vs.take k) ∧ ∀ us, (f, us) ∈ V → us.take k = vs.take k → (f, us) ∈ B

section Precedes

variable {U V : List (Cluster α × List Int)}

theorem precedes_of_apart (hwithin : ∀ q ∈ U ++ V, q.2.take k = ws) (hc : ∀ vs, (c, vs) ∉ U)
    (hf : ∀ us, (f, us) ∈ U ++ V → (f, us) ∈ U) : Precedes k f c (U ++ V) := by
  intro V₁ vs V₂ h
  obtain ⟨W, rfl, -⟩ := append_eq_append_cons h (hc vs)
  refine ⟨[], U ++ W, rfl, fun q hq => ?_, fun us hus _ => List.mem_append_left W (hf us hus)⟩
  rw [hwithin q (h ▸ List.mem_append_left _ hq), hwithin (c, vs) (h ▸ by simp)]

theorem Precedes.append_left (h : Precedes k f c V) (hc : ∀ vs, (c, vs) ∉ U)
    (hf : ∀ us, (f, us) ∉ U) : Precedes k f c (U ++ V) := by
  intro V₁ vs V₂ heq
  obtain ⟨W, rfl, hV⟩ := append_eq_append_cons heq (hc vs)
  obtain ⟨A, B, rfl, hB, hmem⟩ := h W vs V₂ hV
  refine ⟨U ++ A, B, (List.append_assoc U A B).symm, hB, fun us hus htake => ?_⟩
  exact hmem us ((List.mem_append.1 hus).resolve_left (hf us)) htake

theorem Precedes.append_right (h : Precedes k f c U) (hc : ∀ vs, (c, vs) ∉ V)
    (hf : ∀ us, (f, us) ∉ V) : Precedes k f c (U ++ V) := by
  intro V₁ vs V₂ heq
  obtain ⟨W, hU⟩ : ∃ W, U = V₁ ++ (c, vs) :: W := by
    rcases List.append_eq_append_iff.1 heq with ⟨W, -, hV⟩ | ⟨W, hU, hV⟩
    · exact absurd (hV ▸ List.mem_append_right W List.mem_cons_self) (hc vs)
    · cases W with
      | nil =>
        rw [List.nil_append] at hV
        exact absurd (hV ▸ List.mem_cons_self) (hc vs)
      | cons q W =>
        obtain ⟨rfl, -⟩ := List.cons.inj hV
        exact ⟨W, hU⟩
  obtain ⟨A, B, rfl, hB, hmem⟩ := h V₁ vs W hU
  exact ⟨A, B, rfl, hB, fun us hus => hmem us ((List.mem_append.1 hus).resolve_right (hf us))⟩

theorem precedes_flatMap {l : List Int} {F : Int → List (Cluster α × List Int)}
    (h : ∀ v ∈ l, Precedes k f c (F v))
    (hdistinct : ∀ v w, ∀ q ∈ F v, ∀ r ∈ F w, q.2.take k = r.2.take k → v = w) :
    Precedes k f c (l.flatMap F) := by
  intro V₁ vs V₂ heq
  obtain ⟨v, hv, P, W₁, W₂, rfl, hF⟩ := flatMap_eq_append_cons heq
  obtain ⟨A, B, rfl, hB, hmem⟩ := h v hv W₁ vs W₂ hF
  refine ⟨P ++ A, B, (List.append_assoc P A B).symm, hB, fun us hus htake => ?_⟩
  obtain ⟨w, -, hw⟩ := List.mem_flatMap.1 hus
  obtain rfl := hdistinct w v _ hw (c, vs) (hF ▸ by simp) htake
  exact hmem us hw htake

end Precedes

theorem precedes_tour_append {c₀ : Cluster α} (hcs : Uniform ds c₀ (xs ++ f :: (ys ++ c :: zs)))
    (hdepth : k + n = ds.length) (hc : c ∉ xs ++ f :: ys) (hws : ws.length = k)
    {us rs : List (Cluster α)} (heq : ys ++ [c] = us ++ rs) (hsub : us ⊆ ys)
    (htour : tour bounds n k ((xs ++ f :: us) ++ (rs ++ zs)) ws =
      tour bounds n k (xs ++ f :: us) ws ++ tour bounds n k (rs ++ zs) ws) :
    Precedes k f c (tour bounds n k (xs ++ f :: (ys ++ c :: zs)) ws) := by
  have hrest : ys ++ c :: zs = us ++ (rs ++ zs) := by
    rw [← List.append_assoc, ← heq, List.append_assoc, List.singleton_append]
  have hlist : xs ++ f :: (ys ++ c :: zs) = (xs ++ f :: us) ++ (rs ++ zs) := by simp [hrest]
  rw [hlist] at hcs ⊢
  rw [htour]
  have hwithin : ∀ q ∈ tour bounds n k (xs ++ f :: us) ws ++ tour bounds n k (rs ++ zs) ws,
      q.2.take k = ws := by
    rintro ⟨x, vs⟩ hq
    rw [← htour] at hq
    obtain ⟨-, vs, rfl⟩ := exists_of_mem_tour hcs hdepth hq
    rw [← hws, List.take_left]
  refine precedes_of_apart hwithin (fun vs hvs => ?_) fun vs hvs => ?_
  · have hmem := (exists_of_mem_tour hcs.append.1 hdepth hvs).1
    simp only [List.mem_append, List.mem_cons, not_or] at hc hmem
    rcases hmem with h | h | h
    · exact hc.1 h
    · exact hc.2.1 h
    · exact hc.2.2 (hsub h)
  · rw [← htour, mem_tour hcs.dimensions hdepth] at hvs
    rw [mem_tour hcs.append.1.dimensions hdepth]
    exact ⟨by simp, hvs.2⟩

theorem precedes_tour {c₀ : Cluster α} (hcs : Uniform ds c₀ (xs ++ f :: (ys ++ c :: zs)))
    (hdepth : depth + n = ds.length) (hcl : c ∉ xs ++ f :: ys) (hcr : c ∉ zs) (hfl : f ∉ xs)
    (hfr : f ∉ zs) (hws : ws.length = depth) (hk : depth ≤ k) (hkn : k ≤ ds.length)
    (hsame : ∀ j < k, ∀ y ∈ ys ++ [c], level? j y = level? j f)
    (hdiff : k < ds.length → ∃ y ∈ ys ++ [c], level? k y ≠ level? k f) :
    Precedes k f c (tour bounds n depth (xs ++ f :: (ys ++ c :: zs)) ws) := by
  induction n generalizing depth xs zs ws with
  | zero =>
    obtain rfl : k = depth := by omega
    exact precedes_tour_append hcs hdepth hcl hws rfl (List.Subset.refl ys) List.map_append
  | succ n ih =>
    -- At level `k` the two part from each other, and on the levels before it they share the loop.
    by_cases hkd : depth = k
    · subst hkd
      obtain ⟨us, rs, heq, hus, hrs⟩ :=
        exists_prefix (fun y => level? depth y = level? depth f) (ys ++ [c])
      have hne : rs ≠ [] := by
        rintro rfl
        obtain ⟨y, hy, hne⟩ := hdiff (by omega)
        exact hne (hus y (by simpa [heq] using hy))
      have hys : ys = us ++ rs.dropLast := by
        rw [← List.dropLast_append_of_ne_nil hne, ← heq, List.dropLast_concat]
      refine precedes_tour_append hcs hdepth hcl hws heq (hys ▸ List.subset_append_left us _)
        (tour_append fun x hx y hy hxy => ?_)
      rw [List.head?_append_of_ne_nil _ hne] at hy
      refine hrs y hy (hxy.symm.trans ?_)
      rw [List.getLast?_append_of_ne_nil _ (List.cons_ne_nil _ _)] at hx
      rcases List.mem_cons.1 (List.mem_of_getLast? hx) with rfl | hx
      · rfl
      · exact hus x hx
    · obtain ⟨i, hi⟩ := level?_some hcs (show depth < ds.length by omega)
        (List.mem_append_right xs List.mem_cons_self)
      obtain ⟨xs₁, xs₂, rfl, hxs₂, hlast⟩ := exists_suffix (fun x => level? depth x = some i) xs
      obtain ⟨zs₁, zs₂, rfl, hzs₁, hfirst⟩ := exists_prefix (fun x => level? depth x = some i) zs
      have hlist : (xs₁ ++ xs₂) ++ f :: (ys ++ c :: (zs₁ ++ zs₂)) =
          xs₁ ++ ((xs₂ ++ f :: (ys ++ c :: zs₁)) ++ zs₂) := by simp
      have hys : ∀ y ∈ ys ++ [c], level? depth y = some i := fun y hy =>
        (hsame depth (by omega) y hy).trans hi
      have hlevel : ∀ x ∈ xs₂ ++ f :: (ys ++ c :: zs₁), level? depth x = some i := by
        refine List.forall_mem_append.2 ⟨hxs₂, List.forall_mem_cons.2 ⟨hi, ?_⟩⟩
        rw [List.forall_mem_append, List.forall_mem_singleton] at hys
        exact List.forall_mem_append.2 ⟨hys.1, List.forall_mem_cons.2 ⟨hys.2, hzs₁⟩⟩
      rw [hlist] at hcs ⊢
      simp only [List.mem_append, List.mem_cons, not_or] at hcl hcr hfl hfr
      obtain ⟨hcs₁, hcs'⟩ := hcs.append
      obtain ⟨hcs₂, hcs₃⟩ := hcs'.append
      have hshared : ∀ v, Precedes k f c
          (tour bounds n (depth + 1) (xs₂ ++ f :: (ys ++ c :: zs₁)) (ws ++ [v])) := fun v =>
        ih hcs₂ (by omega) (by simp [hcl]) hcr.1 hfl.2 hfr.1 (by simp [hws]) (by omega)
      have hvalue : ∀ v, ∀ q ∈ tour bounds n (depth + 1) (xs₂ ++ f :: (ys ++ c :: zs₁)) (ws ++ [v]),
          (q.2.take k)[depth]? = some v := by
        rintro v ⟨x, us⟩ hq
        obtain ⟨-, us, rfl⟩ := exists_of_mem_tour hcs₂ (by omega) hq
        rw [List.getElem?_take_of_lt (by omega)]
        simp [← hws]
      have hout : ∀ {qs : List (Cluster α)} {x : Cluster α}, Uniform ds c₀ qs → x ∉ qs → ∀ us,
          (x, us) ∉ tour bounds (n + 1) depth qs ws := fun hqs hx us hus =>
        hx (exists_of_mem_tour hqs hdepth hus).1
      have hloop : Precedes k f c ((values f i ((bounds i.dim).getD (0, 0))).flatMap fun v =>
          tour bounds n (depth + 1) (xs₂ ++ f :: (ys ++ c :: zs₁)) (ws ++ [v])) := by
        refine precedes_flatMap (fun v _ => hshared v) fun v w q hq r hr htake => ?_
        have hv := hvalue v q hq
        rw [htake, hvalue w r hr] at hv
        exact (Option.some.inj hv).symm
      rw [tour_group hcs (f := f) (by simp) hlevel hlast hfirst]
      exact (hloop.append_right (hout hcs₃ hcr.2) (hout hcs₃ hfr.2)).append_left
        (hout hcs₁ hcl.1.1) (hout hcs₁ hfl.1)

end Stencil.Nest
