import OsCourse.Gpt.Transformer

/-!
# The layers over flat arrays

Each layer of `gpt.c`, run on arrays that hold the vectors of a batch of streams, ends
without a fault and leaves the vectors of `Transformer.lean` in its output.  It writes
to its own arrays only.  The output has to be allocated and apart from the input.
-/

namespace OsCourse.Gpt

open OsCourse.Cells FloatOps

variable {F : Type} {params m : Memory F}

/-- A matrix with rows of length `c`, stored row by row. -/
def HoldsRows (p n c : Nat) (w : Nat → Nat → F) (m : Memory F) : Prop :=
  ∀ o < n, Holds (p + o * c) c (w o) m

variable [FloatOps F] {out B T C inp t att : Nat} {x : Nat → Nat → Nat → F}

theorem wp_encoderForward {wte wpe V : Nat} {inp : Memory Int} {tokens : Nat → Nat → Nat}
    {we wp : Nat → Nat → F} (hinp : ∀ b < B, ∀ t < T, inp (b * T + t) = .value (tokens b t))
    (htokens : ∀ b < B, ∀ t < T, tokens b t < V) (hwte : HoldsRows wte V C we params)
    (hwpe : HoldsRows wpe T C wp params) (hout : Allocated (array out (B * T * C)) m)
    (hrows : Fits [B, T, C]) (hvocab : Fits [V, C]) :
    Wp (encoderForward params out inp wte wpe B T C) (fun _ m' =>
      Holds₃ out B T C (fun b t c => we (tokens b t) c + wp t c) m' ∧
        Changes (array out (B * T * C)) m m') m := by
  refine wp_vectors_only fun b hb t ht m' hm' => ?_
  obtain ⟨hbt, ht', hindex⟩ := hrows.row hb ht
  refine wp_bind (wp_ints (by simp [hbt, ht', hindex]) ?_)
  refine wp_bind (wp_loadFrom (get_of_value (hinp b hb t ht)) ?_)
  have hix : Fits [tokens b t, C] :=
    hvocab.mono (.cons (htokens b hb t ht).le (List.forall₂_refl [C]))
  refine wp_bind (wp_ints (by simpa using hix) ?_)
  refine wp_fill fun i hi m'' hm'' _ _ => ?_
  have hix : params.get (wte + tokens b t * C + i) = .ok (we (tokens b t) i) := by
    exact_mod_cast get_of_value (hwte (tokens b t) (htokens b hb t ht) i hi)
  refine wp_bind (wp_loadFrom hix ?_)
  refine wp_bind (wp_loadFrom (get_of_value (hwpe t ht i hi)) ?_)
  exact wp_store (hm''.alloc _ (hout.row hm' hb ht hi)) rfl

theorem wp_biasAt {bias : Option Nat} {OC o : Nat} {b : Nat → F}
    (hbias : ∀ p ∈ bias, Holds p OC b params) (hnull : bias = none → ∀ o, b o = zero) (ho : o < OC)
    {Q : F → Memory F → Prop} (h : Q (b o) m) : Wp (biasAt params bias o) Q m := by
  cases bias with
  | some p => exact wp_loadFrom (get_of_value (hbias p rfl o ho)) h
  | none =>
      rw [hnull rfl o] at h
      exact wp_pure h

theorem wp_matmulForward {weight OC : Nat} {bias : Option Nat} {w : Nat → Nat → F} {bv : Nat → F}
    (hinp : Holds₃ inp B T C x m) (hw : HoldsRows weight OC C w params)
    (hbias : ∀ p ∈ bias, Holds p OC bv params) (hnull : bias = none → ∀ o, bv o = zero)
    (hout : Allocated (array out (B * T * OC)) m)
    (hsep : Disjoint (array inp (B * T * C)) (array out (B * T * OC))) (hrows : Fits [B, T, C])
    (hrows' : Fits [B, T, OC]) (hweight : Fits [OC, C]) :
    Wp (matmulForward params out inp weight bias B T C OC) (fun _ m' =>
      Holds₃ out B T OC (fun b t => matmul C w bv (x b t)) m' ∧
        Changes (array out (B * T * OC)) m m') m := by
  refine wp_vectors_only fun b hb t ht m' hm' => ?_
  obtain ⟨hbt, ht', -⟩ := hrows.row hb ht
  obtain ⟨hbt', ht'', -⟩ := hrows'.row hb ht
  refine wp_bind (wp_ints (by simp [hbt, ht', hbt', ht'']) ?_)
  refine wp_fill fun o ho m'' hm'' _ _ => ?_
  have hm := hm'.trans (hm''.mono (row_subset hb ht))
  refine wp_bind (wp_biasAt hbias hnull ho ?_)
  have ho' : Fits [o, C] := hweight.mono (.cons ho.le (List.forall₂_refl [C]))
  refine wp_bind (wp_ints (by simpa using ho') ?_)
  refine wp_bind (wp_loop_fold (f := fun i val => val + x b t i * w o i)
    (fun i hi val R hR => ?_) ?_)
  · refine wp_bind (wp_load (hinp.load hm hsep hb ht hi) ?_)
    refine wp_bind (wp_loadFrom (get_of_value (hw o ho i hi)) ?_)
    exact wp_pure hR
  · exact wp_store (hout.row hm hb ht ho) rfl

theorem wp_geluForward {N : Nat} {x : Nat → F} (hinp : Holds inp N x m)
    (hout : Allocated (array out N) m) (hsep : Disjoint (array inp N) (array out N)) :
    Wp (geluForward out inp N) (fun _ m' =>
      Holds out N (fun i => gelu (x i)) m' ∧ Changes (array out N) m m') m := by
  refine wp_fill fun i hi m' hm' _ _ => ?_
  refine wp_bind (wp_load ((dependsOn_holds inp N x).keep hm' hsep hinp i hi) ?_)
  exact wp_store (hm'.alloc _ (hout _ (mem_array.mpr (by omega)))) rfl

theorem wp_residualForward {inp1 inp2 N : Nat} {x y : Nat → F} (hx : Holds inp1 N x m)
    (hy : Holds inp2 N y m) (hout : Allocated (array out N) m)
    (hsep1 : Disjoint (array inp1 N) (array out N))
    (hsep2 : Disjoint (array inp2 N) (array out N)) :
    Wp (residualForward out inp1 inp2 N) (fun _ m' =>
      Holds out N (fun i => x i + y i) m' ∧ Changes (array out N) m m') m := by
  refine wp_fill fun i hi m' hm' _ _ => ?_
  refine wp_bind (wp_load ((dependsOn_holds inp1 N x).keep hm' hsep1 hx i hi) ?_)
  refine wp_bind (wp_load ((dependsOn_holds inp2 N y).keep hm' hsep2 hy i hi) ?_)
  exact wp_store (hm'.alloc _ (hout _ (mem_array.mpr (by omega)))) rfl

theorem wp_layernormForward {mean_ rstd weight bias : Nat} {w bv : Nat → F}
    (hinp : Holds₃ inp B T C x m) (hw : Holds weight C w params) (hbias : Holds bias C bv params)
    (hout : Allocated (array out (B * T * C)) m) (hmean : Allocated (array mean_ (B * T)) m)
    (hrstd : Allocated (array rstd (B * T)) m)
    (hsep : Disjoint (array inp (B * T * C)) (array out (B * T * C)))
    (hsep' : Disjoint (array inp (B * T * C)) (array mean_ (B * T) ∪ array rstd (B * T)))
    (hout' : Disjoint (array out (B * T * C)) (array mean_ (B * T) ∪ array rstd (B * T)))
    (hrows : Fits [B, T, C]) :
    Wp (layernormForward params out mean_ rstd inp weight bias B T C) (fun _ m' =>
      Holds₃ out B T C (fun b t => layernorm C w bv (x b t)) m' ∧
        Changes (array out (B * T * C) ∪ (array mean_ (B * T) ∪ array rstd (B * T))) m m') m := by
  refine wp_vectors hout' fun b hb t ht m' hm' => ?_
  have hin : ∀ i < C, m' (inp + (b * T * C + t * C) + i) = .value (x b t i) := fun i hi =>
    hinp.load hm' (Set.disjoint_union_right.mpr ⟨hsep, hsep'⟩) hb ht hi
  have hbt : b * T + t < B * T := by
    have := row_le 1 hb ht
    omega
  obtain ⟨hrow, hcol, hindex⟩ := hrows.row hb ht
  refine wp_bind (wp_ints (by simp [hrow, hcol, hindex]) ?_)
  dsimp only
  refine wp_bind (wp_loop_fold (f := fun i m => m + x b t i) (fun i hi _ R hR =>
    wp_bind (wp_load (hin i hi) (wp_pure hR))) ?_)
  refine wp_bind (wp_loop_fold
    (f := fun i v => v + (x b t i - mean C (x b t)) * (x b t i - mean C (x b t)))
    (fun i hi _ R hR => wp_bind (wp_load (hin i hi) (wp_pure hR))) ?_)
  refine wp_bind ((wp_fill (p := out + (b * T * C + t * C)) (f := layernorm C w bv (x b t))
    fun i hi m'' hm'' _ _ => ?_).mono ?_)
  · have hin' : m'' (inp + (b * T * C + t * C) + i) = .value (x b t i) := by
      rw [hm''.keep _ (Set.disjoint_left.mp (hsep.mono (row_subset hb ht) (row_subset hb ht))
        (mem_array.mpr (by omega))), hin i hi]
    refine wp_bind (wp_load hin' ?_)
    refine wp_bind (wp_loadFrom (get_of_value (hw i hi)) ?_)
    refine wp_bind (wp_loadFrom (get_of_value (hbias i hi)) ?_)
    exact wp_store (hm''.alloc _ (hout.row hm' hb ht hi)) rfl
  · rintro - m'' ⟨hdone, hm''⟩
    have hmean' : mean_ + (b * T + t) ∈ array mean_ (B * T) ∪ array rstd (B * T) :=
      .inl (mem_array.mpr (by omega))
    have hrstd' : rstd + (b * T + t) ∈ array mean_ (B * T) ∪ array rstd (B * T) :=
      .inr (mem_array.mpr (by omega))
    have hkeep : DependsOn (array (out + (b * T * C + t * C)) C)
        (Holds _ C (layernorm C w bv (x b t))) :=
      dependsOn_holds _ _ _
    have hrow := hout'.mono_left (row_subset hb ht)
    refine wp_bind (wp_store ?_ (wp_store ?_ ?_))
    · exact hm''.alloc _ (hm'.alloc _ (hmean _ (mem_array.mpr (by omega))))
    · exact (changes_update hmean' _).alloc _
        (hm''.alloc _ (hm'.alloc _ (hrstd _ (mem_array.mpr (by omega)))))
    · have hlast := (changes_update (m := m'') hmean' (mean C (x b t))).trans
        (changes_update hrstd' (reciprocalStd C (x b t)))
      exact ⟨hkeep.keep hlast hrow hdone, (hm''.mono Set.subset_union_left).trans
        (hlast.mono Set.subset_union_right)⟩

theorem wp_softmaxForward {probs logits V : Nat} (hlogits : Holds₃ logits B T V x m)
    (hprobs : Allocated (array probs (B * T * V)) m)
    (hsep : Disjoint (array logits (B * T * V)) (array probs (B * T * V)))
    (hrows : Fits [B, T, V]) :
    Wp (softmaxForward probs logits B T V) (fun _ m' =>
      Holds₃ probs B T V (fun b t => softmax V (x b t)) m' ∧
        Changes (array probs (B * T * V)) m m') m := by
  refine wp_vectors_only fun b hb t ht m' hm' => ?_
  have hrow : array (probs + (b * T * V + t * V)) V ⊆ array probs (B * T * V) := row_subset hb ht
  obtain ⟨hbt, ht', -⟩ := hrows.row hb ht
  refine wp_bind (wp_ints (by simp [hbt, ht']) ?_)
  dsimp only
  refine wp_bind (wp_loop_fold
    (f := fun i maxval => if lt maxval (x b t i) then x b t i else maxval)
    (fun i hi _ R hR => wp_bind (wp_load (hlogits.load hm' hsep hb ht hi) (wp_pure hR))) ?_)
  -- the second loop fills the array with exponentials and adds them up
  refine wp_bind ((wp_loop (fun k sum m'' =>
    sum = fold k (fun i sum => sum + exponential V (x b t) i) zero ∧
      Holds (probs + (b * T * V + t * V)) k (exponential V (x b t)) m'' ∧
      Changes (array (probs + (b * T * V + t * V)) V) m' m'') ?_ ?_).mono ?_)
  · exact ⟨rfl, fun i hi => absurd hi (Nat.not_lt_zero i), Changes.refl _ m'⟩
  · rintro i hi sum m'' ⟨rfl, hdone, hm''⟩
    have hin := hlogits.load (hm'.trans (hm''.mono hrow)) hsep hb ht hi
    refine wp_bind (wp_load hin (wp_bind (wp_store (hm''.alloc _ (hprobs.row hm' hb ht hi)) ?_)))
    refine wp_bind (wp_load (Function.update_self _ _ _) (wp_pure ⟨?_, hdone.succ,
      hm''.trans (changes_update (mem_array.mpr (by omega)) _)⟩))
    exact (fold_succ i (fun i sum => sum + exponential V (x b t) i) zero).symm
  · rintro sum m'' ⟨rfl, hdone, hm''⟩
    refine (wp_fill (p := probs + (b * T * V + t * V)) (f := softmax V (x b t))
      fun i hi m₁ hm₁ _ hrest => ?_).mono ?_
    · refine wp_bind (wp_load ((hrest i le_rfl).trans (hdone i hi)) ?_)
      exact wp_store (hm₁.alloc _ (hm''.alloc _ (hprobs.row hm' hb ht hi))) rfl
    · rintro - m₁ ⟨hall, hm₁⟩
      exact ⟨hall, hm''.trans hm₁⟩

/-! ## Attention -/

theorem wp_attentionScores {preatt query hs : Nat} {key : Nat → Nat} {q : Nat → F}
    {k : Nat → Nat → F} (ht : t < T) (hq : Holds query hs q m)
    (hk : ∀ t2 ≤ t, Holds (key t2) hs (k t2) m) (hpre : Allocated (array preatt T) m)
    (hsepq : Disjoint (array query hs) (array preatt T))
    (hsepk : ∀ t2 ≤ t, Disjoint (array (key t2) hs) (array preatt T)) :
    Wp (attentionScores preatt query key hs t) (fun maxval m' =>
      let scores := fun t2 => fold hs (fun i val => val + q i * k t2 i) zero * attentionScale hs
      maxval = largest (t + 1) scores ∧ Holds preatt (t + 1) scores m' ∧
        Changes (array preatt T) m m') m := by
  refine wp_loop (fun n maxval m' =>
    let scores := fun t2 => fold hs (fun i val => val + q i * k t2 i) zero * attentionScale hs
    maxval = largest n scores ∧ Holds preatt n scores m' ∧ Changes (array preatt T) m m') ?_ ?_
  · exact ⟨rfl, fun i hi => absurd hi (Nat.not_lt_zero i), Changes.refl _ m⟩
  · rintro t2 ht2 maxval m' ⟨rfl, hdone, hm'⟩
    have hq' := (dependsOn_holds query hs q).keep hm' hsepq hq
    have hk' := (dependsOn_holds (key t2) hs (k t2)).keep hm' (hsepk t2 (Nat.lt_succ_iff.mp ht2))
      (hk t2 (Nat.lt_succ_iff.mp ht2))
    refine wp_bind (wp_loop_fold (f := fun i val => val + q i * k t2 i) (fun i hi _ R hR =>
      wp_bind (wp_load (hq' i hi) (wp_bind (wp_load (hk' i hi) (wp_pure hR))))) ?_)
    have hcell : preatt + t2 ∈ array preatt T := mem_array.mpr (by omega)
    refine wp_bind (wp_store (hm'.alloc _ (hpre _ hcell)) (wp_pure ⟨?_, hdone.succ, ?_⟩))
    · exact (largest_succ t2 _).symm
    · exact hm'.trans (changes_update hcell _)

theorem wp_attentionExponentials {preatt : Nat} {s : Nat → F} (ht : t < T)
    (hpre : Holds preatt (t + 1) s m) (hatt : Allocated (array att T) m)
    (hsep : Disjoint (array preatt (t + 1)) (array att T)) :
    Wp (attentionExponentials preatt att t (largest (t + 1) s)) (fun expsum m' =>
      expsum = exponentialSum (t + 1) s ∧ Holds att (t + 1) (exponential (t + 1) s) m' ∧
        Changes (array att T) m m') m := by
  refine wp_loop (fun n expsum m' =>
    expsum = fold n (fun i sum => sum + exponential (t + 1) s i) zero ∧
      Holds att n (exponential (t + 1) s) m' ∧ Changes (array att T) m m') ?_ ?_
  · exact ⟨rfl, fun i hi => absurd hi (Nat.not_lt_zero i), Changes.refl _ m⟩
  · rintro t2 ht2 expsum m' ⟨rfl, hdone, hm'⟩
    have hpre' := (dependsOn_holds preatt (t + 1) s).keep hm' hsep hpre t2 ht2
    have hcell : att + t2 ∈ array att T := mem_array.mpr (by omega)
    refine wp_bind (wp_load hpre' (wp_bind (wp_store (hm'.alloc _ (hatt _ hcell))
      (wp_pure ⟨?_, hdone.succ, ?_⟩))))
    · exact (fold_succ t2 (fun i sum => sum + exponential (t + 1) s i) zero).symm
    · exact hm'.trans (changes_update hcell _)

theorem wp_attentionNormalize {e : Nat → F} {r : F} (ht : t < T) (hatt : Holds att (t + 1) e m)
    (halloc : Allocated (array att T) m) :
    Wp (attentionNormalize att T t r) (fun _ m' =>
      Holds att (t + 1) (fun t2 => e t2 * r) m' ∧ Changes (array att T) m m') m := by
  refine (wp_fill (p := att) (f := fun t2 => if t2 ≤ t then e t2 * r else zero)
    fun t2 ht2 m' hm' _ hrest => ?_).mono ?_
  · have hcell : m' (att + t2) ≠ .outside := hm'.alloc _ (halloc _ (mem_array.mpr (by omega)))
    by_cases hle : t2 ≤ t
    · simp only [if_pos hle]
      refine wp_bind (wp_load ((hrest t2 le_rfl).trans (hatt t2 (Nat.lt_succ_iff.mpr hle))) ?_)
      exact wp_store hcell rfl
    · simp only [if_neg hle]
      exact wp_store hcell rfl
  · rintro - m' ⟨hdone, hm'⟩
    refine ⟨fun t2 ht2 => ?_, hm'⟩
    exact (hdone t2 (by omega)).trans (congrArg Cell.value (if_pos (Nat.lt_succ_iff.mp ht2)))

theorem wp_attentionAccumulate {hs : Nat} {value : Nat → Nat} {a : Nat → F} {v : Nat → Nat → F}
    (hatt : Holds att (t + 1) a m) (hv : ∀ t2 ≤ t, Holds (value t2) hs (v t2) m)
    (hout : Allocated (array out hs) m) (hsepa : Disjoint (array att (t + 1)) (array out hs))
    (hsepv : ∀ t2 ≤ t, Disjoint (array (value t2) hs) (array out hs)) :
    Wp (attentionAccumulate out att value hs t) (fun _ m' =>
      Holds out hs (fun i => fold (t + 1) (fun t2 o => o + a t2 * v t2 i) zero) m' ∧
        Changes (array out hs) m m') m := by
  refine wp_bind ((wp_fill (p := out) (f := fun _ => zero) fun i hi m' hm' _ _ => ?_).mono ?_)
  · exact wp_store (hm'.alloc _ (hout _ (mem_array.mpr (by omega)))) rfl
  rintro - m₀ ⟨hzero, hm₀⟩
  refine wp_loop (fun n _ m' =>
    Holds out hs (fun i => fold n (fun t2 o => o + a t2 * v t2 i) zero) m' ∧
      Changes (array out hs) m m') ⟨hzero, hm₀⟩ ?_
  rintro t2 ht2 - m' ⟨hdone, hm'⟩
  have ha := (dependsOn_holds att (t + 1) a).keep hm' hsepa hatt t2 ht2
  refine wp_bind (wp_load ha ?_)
  refine (wp_fill (p := out) (f := fun i => fold (t2 + 1) (fun t2 o => o + a t2 * v t2 i) zero)
    fun i hi m₁ hm₁ _ hrest => ?_).mono ?_
  · have hv' := (dependsOn_holds (value t2) hs (v t2)).keep (hm'.trans hm₁)
      (hsepv t2 (Nat.lt_succ_iff.mp ht2)) (hv t2 (Nat.lt_succ_iff.mp ht2)) i hi
    refine wp_bind (wp_load ((hrest i le_rfl).trans (hdone i hi)) (wp_bind (wp_load hv' ?_)))
    have hcell := (hm'.trans hm₁).alloc _ (hout (out + i) (mem_array.mpr (by omega)))
    refine wp_store hcell ?_
    rw [fold_succ]
  · rintro - m₁ ⟨hall, hm₁⟩
    exact ⟨hall, hm'.trans hm₁⟩

section Head

variable {out preatt att inp B T C NH b t h : Nat} {x : Nat → Nat → Nat → F}

/-- The channels of a head. -/
theorem head_le (hh : h < NH) : h * (C / NH) + C / NH ≤ C := by
  calc h * (C / NH) + C / NH = (h + 1) * (C / NH) := by ring
    _ ≤ NH * (C / NH) := Nat.mul_le_mul_right _ hh
    _ ≤ C := Nat.mul_div_le C NH

/-- The cells of `preatt` and `att` for one query. -/
theorem query_subset {p : Nat} (hb : b < B) (hh : h < NH) (ht : t < T) :
    array (p + (b * NH * T * T + h * T * T + t * T)) T ⊆ array p (B * NH * T * T) := by
  have hrow := row_le (T * T) hb hh
  have hcol : t * T + T ≤ T * T := by
    rw [← Nat.succ_mul]
    exact Nat.mul_le_mul_right T ht
  simp only [← Nat.mul_assoc] at hrow
  intro a ha
  rw [mem_array] at ha ⊢
  omega

omit [FloatOps F] in
/-- A head reads `hs` channels of the input, from channel `c` on. -/
theorem holds_channels {D c hs : Nat} (hinp : Holds₃ inp B T D x m) (hb : b < B) (ht : t < T)
    (hc : c + hs ≤ D) : Holds (inp + (b * T * D + t * D + c)) hs (fun i => x b t (c + i)) m := by
  intro i hi
  have hcell := hinp b hb t ht (c + i) (by omega)
  rwa [← Nat.add_assoc, Nat.add_assoc inp] at hcell

theorem channels_subset {D c hs : Nat} (hb : b < B) (ht : t < T) (hc : c + hs ≤ D) :
    array (inp + (b * T * D + t * D + c)) hs ⊆ array inp (B * T * D) := by
  have hrow := row_le D hb ht
  intro a ha
  rw [mem_array] at ha ⊢
  omega

/-- The products of `attention_forward` have no overflow. -/
structure AttentionFits (B T C NH : Nat) : Prop where
  rows : Fits [B, T, C]
  rows3 : Fits [B, T, C * 3]
  scores : Fits [B, NH, T, T]
  channels : Fits [C, 3]

theorem AttentionFits.head (hfits : AttentionFits B T C NH) (hb : b < B) (ht : t < T)
    (hh : h < NH) :
    ∀ factors ∈ [[b, T, C * 3], [t, C * 3], [h, C / NH], [b, NH, T, T], [h, T, T], [t, T], [C, 2],
      [b, T, C], [t, C]], Fits factors := by
  obtain ⟨hbt, ht', -⟩ := hfits.rows.row hb ht
  obtain ⟨hbt3, ht3, -⟩ := hfits.rows3.row hb ht
  have hscores := hfits.scores.tail (Nat.zero_lt_of_lt hb)
  have hbnh : Fits [b, NH, T, T] :=
    hfits.scores.mono (.cons hb.le (List.forall₂_refl [NH, T, T]))
  have hht : Fits [h, T, T] := hscores.mono (.cons hh.le (List.forall₂_refl [T, T]))
  have htt : Fits [t, T] :=
    (hscores.tail (Nat.zero_lt_of_lt hh)).mono (.cons ht.le (List.forall₂_refl [T]))
  have hc2 : Fits [C, 2] := hfits.channels.mono (.cons le_rfl (.cons (by decide) .nil))
  have hhs : Fits [h, C / NH] := by
    have hNH : NH ≤ intMax := (hscores.take (l := [NH])).le
    have hC : C ≤ intMax := (hfits.channels.take (l := [C])).le
    have hle : h * (C / NH) ≤ C := (Nat.le_add_right _ _).trans (head_le hh)
    simp only [Fits, fitsFrom, Nat.one_mul, Bool.and_true, Bool.and_eq_true, decide_eq_true_eq]
    exact ⟨hh.le.trans hNH, hle.trans hC⟩
  simp [hbt, ht', hbt3, ht3, hbnh, hht, htt, hc2, hhs]

variable (hinp : Holds₃ inp B T (C * 3) x m)
  (hout : Allocated (array out (B * T * C)) m)
  (hpreatt : Allocated (array preatt (B * NH * T * T)) m)
  (hatt : Allocated (array att (B * NH * T * T)) m)
  (hsep : Disjoint (array inp (B * T * (C * 3))) (array out (B * T * C)))
  (hsepp : Disjoint (array inp (B * T * (C * 3))) (array preatt (B * NH * T * T)))
  (hsepa : Disjoint (array inp (B * T * (C * 3))) (array att (B * NH * T * T)))
  (hpa : Disjoint (array preatt (B * NH * T * T)) (array att (B * NH * T * T)))
  (hoa : Disjoint (array out (B * T * C)) (array att (B * NH * T * T)))
  (hfits : AttentionFits B T C NH)

include hinp hout hpreatt hatt hsep hsepp hsepa hpa hoa hfits

theorem wp_attentionHead (hb : b < B) (ht : t < T) (hh : h < NH) :
    Wp (attentionHead out preatt att inp T C NH b t h) (fun _ m' =>
      Holds (out + (b * T * C + t * C + h * (C / NH))) (C / NH)
        (weightedValue C (C / NH) (x b) t (h * (C / NH))) m' ∧
      Changes (array (out + (b * T * C + t * C + h * (C / NH))) (C / NH) ∪
        (array preatt (B * NH * T * T) ∪ array att (B * NH * T * T))) m m') m := by
  have hhead := head_le (C := C) hh
  have hP : array (preatt + (b * NH * T * T + h * T * T + t * T)) T ⊆ _ := query_subset hb hh ht
  have hA : array (att + (b * NH * T * T + h * T * T + t * T)) T ⊆ _ := query_subset hb hh ht
  have hO : array (out + (b * T * C + t * C + h * (C / NH))) (C / NH) ⊆ _ :=
    channels_subset hb ht hhead
  have hPt : array (preatt + (b * NH * T * T + h * T * T + t * T)) (t + 1) ⊆ _ :=
    fun a ha => hP (mem_array.mpr (by rw [mem_array] at ha; omega))
  have hAt : array (att + (b * NH * T * T + h * T * T + t * T)) (t + 1) ⊆ _ :=
    fun a ha => hA (mem_array.mpr (by rw [mem_array] at ha; omega))
  unfold attentionHead
  dsimp only
  refine wp_bind (wp_ints (hfits.head hb ht hh) ?_)
  -- pass 1
  refine wp_bind ((wp_attentionScores (T := T) ht
    (holds_channels hinp hb ht (by omega))
    (fun t2 ht2 => holds_channels hinp hb (ht2.trans_lt ht) (by omega)) (hpreatt.mono hP)
    (hsepp.mono (channels_subset hb ht (by omega)) hP)
    (fun t2 ht2 => hsepp.mono (channels_subset hb (ht2.trans_lt ht) (by omega)) hP)).mono ?_)
  rintro maxval m₁ ⟨rfl, hscores, hm₁⟩
  -- pass 2
  refine wp_bind ((wp_attentionExponentials (T := T) ht hscores ((hatt.changes hm₁).mono hA)
    (hpa.mono hPt hA)).mono ?_)
  rintro expsum m₂ ⟨rfl, hexps, hm₂⟩
  -- pass 3
  refine wp_bind ((wp_attentionNormalize ht hexps
    (((hatt.changes hm₁).changes hm₂).mono hA)).mono ?_)
  rintro - m₃ ⟨hweights, hm₃⟩
  -- pass 4
  have hm : Changes (array preatt (B * NH * T * T) ∪ array att (B * NH * T * T)) m m₃ :=
    (hm₁.mono (hP.trans Set.subset_union_left)).trans
      ((hm₂.trans hm₃).mono (hA.trans Set.subset_union_right))
  have hinp₃ := (dependsOn_holds₃ inp B T (C * 3) x).keep hm
    (Set.disjoint_union_right.mpr ⟨hsepp, hsepa⟩) hinp
  refine (wp_attentionAccumulate hweights
    (fun t2 ht2 => holds_channels hinp₃ hb (ht2.trans_lt ht) (by omega))
    ((hout.changes hm).mono hO) (hoa.symm.mono hAt hO)
    (fun t2 ht2 => hsep.mono (channels_subset hb (ht2.trans_lt ht) (by omega)) hO)).mono ?_
  rintro - m₄ ⟨hvalues, hm₄⟩
  exact ⟨hvalues, (hm.mono Set.subset_union_right).trans (hm₄.mono Set.subset_union_left)⟩

theorem wp_attentionForward (hNH : NH ∣ C)
    (hop : Disjoint (array out (B * T * C)) (array preatt (B * NH * T * T))) :
    Wp (attentionForward out preatt att inp B T C NH) (fun _ m' =>
      Holds₃ out B T C (fun b => attention C NH (x b)) m' ∧
      Changes (array out (B * T * C) ∪
        (array preatt (B * NH * T * T) ∪ array att (B * NH * T * T))) m m') m := by
  have hout' := Set.disjoint_union_right.mpr ⟨hop, hoa⟩
  refine wp_bind (wp_ints (by simpa using hfits.channels) ?_)
  refine wp_vectors hout' fun b hb t ht m' hm' => ?_
  have hsize : NH * (C / NH) = C := Nat.mul_div_cancel' hNH
  have hrow : array (out + (b * T * C + t * C)) (NH * (C / NH)) ⊆ array out (B * T * C) := by
    rw [hsize]
    exact row_subset hb ht
  have hheads : Wp (each NH fun h => attentionHead out preatt att inp T C NH b t h) (fun _ m'' =>
      Holds (out + (b * T * C + t * C)) (NH * (C / NH)) (attention C NH (x b) t) m'' ∧
      Changes (array (out + (b * T * C + t * C)) (NH * (C / NH)) ∪
        (array preatt (B * NH * T * T) ∪ array att (B * NH * T * T))) m' m'') m' := by
    refine wp_pieces (f := fun h => weightedValue C (C / NH) (x b) t (h * (C / NH)))
      (hout'.mono_left hrow) fun h hh m'' hm'' => ?_
    have hm := hm'.trans (hm''.mono (Set.union_subset_union_left _ hrow))
    have hinp' := (dependsOn_holds₃ inp B T (C * 3) x).keep hm
      (Set.disjoint_union_right.mpr ⟨hsep, Set.disjoint_union_right.mpr ⟨hsepp, hsepa⟩⟩) hinp
    have hhead := wp_attentionHead hinp' (hout.changes hm) (hpreatt.changes hm) (hatt.changes hm)
      hsep hsepp hsepa hpa hoa hfits hb ht hh
    rwa [← Nat.add_assoc out] at hhead
  simpa only [hsize] using hheads

end Head

end OsCourse.Gpt
