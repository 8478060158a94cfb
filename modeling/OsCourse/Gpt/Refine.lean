import OsCourse.Gpt.Forward
import OsCourse.Gpt.Kernels

/-!
# The forward pass computes the network

`Config.network` reads the weights of a network off the flat parameters.  The forward
pass of a model with these parameters ends without a fault, and leaves the
probabilities of the network in the array `probs` (`wp_forwardPass`), for every batch
and every number of positions that the position embedding has.

The loop over the layers has one invariant: the residual stream that the next layer
reads is the stream of the network after that many blocks.  A layer reads tensors that
it does not write to at the same time, as all tensors have cells of their own
(`region_disjoint`).
-/

namespace OsCourse.Gpt

open OsCourse.Cells FloatOps

variable {F : Type}

/-! ## Parameters -/

/-- The vector that starts at a parameter. -/
def vector (v : Nat → F) (p : Nat) : Nat → F := fun i => v (p + i)

/-- The matrix that starts at a parameter, with rows of length `c`. -/
def matrix (v : Nat → F) (p c : Nat) : Nat → Nat → F := fun o i => v (p + o * c + i)

/-- The weights of layer `l`, for the flat parameters `v`. -/
def Config.weights (cfg : Config) (v : Nat → F) (l : Nat) : Weights F where
  ln1 := (vector v (cfg.params .ln1w + l * cfg.C), vector v (cfg.params .ln1b + l * cfg.C))
  qkv := (matrix v (cfg.params .qkvw + l * 3 * cfg.C * cfg.C) cfg.C,
    vector v (cfg.params .qkvb + l * 3 * cfg.C))
  attproj := (matrix v (cfg.params .attprojw + l * cfg.C * cfg.C) cfg.C,
    vector v (cfg.params .attprojb + l * cfg.C))
  ln2 := (vector v (cfg.params .ln2w + l * cfg.C), vector v (cfg.params .ln2b + l * cfg.C))
  fc := (matrix v (cfg.params .fcw + l * 4 * cfg.C * cfg.C) cfg.C,
    vector v (cfg.params .fcb + l * 4 * cfg.C))
  fcproj := (matrix v (cfg.params .fcprojw + l * cfg.C * 4 * cfg.C) (4 * cfg.C),
    vector v (cfg.params .fcprojb + l * cfg.C))

/-- The network with the flat parameters `v`. -/
def Config.network (cfg : Config) (v : Nat → F) : Network F where
  V := cfg.V
  L := cfg.L
  NH := cfg.NH
  C := cfg.C
  wte := matrix v (cfg.params .wte) cfg.C
  wpe := matrix v (cfg.params .wpe) cfg.C
  layer := cfg.weights v
  lnf := (vector v (cfg.params .lnfw), vector v (cfg.params .lnfb))

/-- All parameters of a model have a value. -/
def Model.Loaded (model : Model F) (v : Nat → F) : Prop :=
  Holds 0 model.config.numParameters v model.params

section Params

variable {model : Model F} {v : Nat → F}

theorem Param.mem_all (x : Param) : x ∈ Param.all := by
  cases x <;> decide

/-- An array inside of a parameter tensor. -/
theorem Model.Loaded.vector (h : model.Loaded v) (x : Param) {p n : Nat}
    (hp : array p n ⊆ array (model.config.params x) (model.config.paramSizes x)) :
    Holds p n (vector v p) model.params := by
  intro i hi
  have hmem := mem_array.mp (hp (mem_array.mpr ⟨Nat.le_add_right p i, by omega⟩))
  have hle := place_le model.config.paramSizes (Param.mem_all x) 0
  have hcell := h (p + i) (by
    rw [Config.params] at hmem
    rw [Config.numParameters]
    omega)
  rwa [Nat.zero_add] at hcell

/-- A vector of layer `l`. -/
theorem Model.Loaded.layerVector (h : model.Loaded v) (x : Param) {p n l : Nat}
    (hsize : model.config.paramSizes x = model.config.L * n)
    (hp : p = model.config.params x + l * n) (hl : l < model.config.L) :
    Holds p n (Gpt.vector v p) model.params := by
  refine h.vector x ?_
  rw [hsize, hp]
  exact piece_subset hl

/-- A matrix of layer `l`. -/
theorem Model.Loaded.layerMatrix (h : model.Loaded v) (x : Param) {p n c l : Nat}
    (hsize : model.config.paramSizes x = model.config.L * n * c)
    (hp : p = model.config.params x + l * n * c) (hl : l < model.config.L) :
    HoldsRows p n c (matrix v p c) model.params := by
  intro o ho
  refine h.vector x ?_
  rw [hsize, hp, Nat.add_assoc]
  exact row_subset hl ho

/-- The first rows of a matrix that the layers share. -/
theorem Model.Loaded.matrix (h : model.Loaded v) (x : Param) {n k c : Nat}
    (hsize : model.config.paramSizes x = k * c) (hn : n ≤ k) :
    HoldsRows (model.config.params x) n c (matrix v (model.config.params x) c) model.params := by
  intro o ho
  refine h.vector x ?_
  rw [hsize]
  exact piece_subset (ho.trans_le hn)

end Params

/-! ## Activations -/

/-- The cells of some tensors. -/
def Config.region (cfg : Config) (B T : Nat) (A : List Act) : Set Nat :=
  {a | ∃ x ∈ A, a ∈ array (cfg.acts B T x) (cfg.actSizes B T x)}

section Acts

variable {cfg : Config} {B T : Nat}

theorem Act.mem_all (x : Act) : x ∈ Act.all := by
  cases x <;> decide

theorem region_disjoint {A A' : List Act} (h : ∀ x ∈ A, x ∉ A') :
    Disjoint (cfg.region B T A) (cfg.region B T A') := by
  refine Set.disjoint_left.mpr ?_
  rintro a ⟨x, hx, hax⟩ ⟨y, hy, hay⟩
  have hne : x ≠ y := by
    rintro rfl
    exact h x hx hy
  have hsep := place_disjoint (cfg.actSizes B T) x.mem_all y.mem_all hne 0
  exact Set.disjoint_left.mp hsep hax hay

theorem region_subset (A : List Act) : cfg.region B T A ⊆ array 0 (cfg.numActivations B T) := by
  rintro a ⟨x, -, ha⟩
  have hle := place_le (cfg.actSizes B T) x.mem_all 0
  rw [mem_array, Config.acts] at ha
  rw [mem_array, Config.numActivations]
  omega

/-- A whole tensor. -/
theorem tensor_subset {A : List Act} (x : Act) (hA : x ∈ A := by decide) :
    array (cfg.acts B T x) (cfg.actSizes B T x) ⊆ cfg.region B T A :=
  fun _ ha => ⟨x, hA, ha⟩

/-- The tensors with a piece for each layer. -/
def Act.layered : List Act :=
  [.ln1, .ln1Mean, .ln1Rstd, .qkv, .atty, .preatt, .att, .attproj, .residual2, .ln2, .ln2Mean,
    .ln2Rstd, .fch, .fchGelu, .fcproj, .residual3]

/-- The size of a tensor, without its dimension for the layers. -/
def Config.layerSizes (cfg : Config) (B T : Nat) : Act → Nat
  | .ln1Mean | .ln1Rstd | .ln2Mean | .ln2Rstd => B * T
  | .qkv => B * T * (3 * cfg.C)
  | .preatt | .att => B * cfg.NH * T * T
  | .fch | .fchGelu => B * T * (4 * cfg.C)
  | _ => B * T * cfg.C

/-- The piece of a tensor for layer `l`. -/
def Config.piece (cfg : Config) (B T l : Nat) (x : Act) : Nat :=
  cfg.acts B T x + l * cfg.layerSizes B T x

theorem actSizes_layered {x : Act} (hx : x ∈ Act.layered) :
    cfg.actSizes B T x = cfg.L * cfg.layerSizes B T x := by
  cases x <;> first
    | exact absurd hx (by decide)
    | (simp only [Config.actSizes, Config.actFactors, product, List.foldl, Config.layerSizes]; ring)

theorem layer_subset {A : List Act} {l : Nat} (hl : l < cfg.L) (x : Act)
    (hx : x ∈ Act.layered := by decide) (hA : x ∈ A := by decide) :
    array (cfg.piece B T l x) (cfg.layerSizes B T x) ⊆ cfg.region B T A := by
  refine Set.Subset.trans ?_ (tensor_subset x hA)
  rw [actSizes_layered hx]
  exact piece_subset hl

end Acts

/-! ## Products -/

/-- No size of a tensor overflows. -/
structure Config.Fits (cfg : Config) (B T : Nat) : Prop where
  params : ∀ factors ∈ cfg.paramProducts, Cells.Fits factors
  acts : ∀ factors ∈ cfg.actProducts B T, Cells.Fits factors

/-- The heads share the channels evenly, and there are some of both. -/
structure Config.Valid (cfg : Config) : Prop where
  heads : 0 < cfg.NH
  channels : cfg.NH ∣ cfg.C
  positive : 0 < cfg.C

namespace Config.Fits

variable {cfg : Config} {B T T' l : Nat}

theorem param (h : cfg.Fits B T) (x : Param) : Cells.Fits (cfg.paramFactors x) :=
  h.params _ (List.mem_cons_of_mem _ (List.mem_cons_of_mem _ (List.mem_map_of_mem x.mem_all)))

theorem act (h : cfg.Fits B T) (x : Act) : Cells.Fits (cfg.actFactors B T x) :=
  h.acts _ (List.mem_map_of_mem x.mem_all)

theorem three (h : cfg.Fits B T) : Cells.Fits [3, cfg.C] := h.params _ (by simp [paramProducts])

theorem four (h : cfg.Fits B T) : Cells.Fits [4, cfg.C] := h.params _ (by simp [paramProducts])

/-- A shorter sequence needs less. -/
theorem mono (h : cfg.Fits B T) (hT : T' ≤ T) : cfg.Fits B T' := by
  refine ⟨h.params, List.forall_mem_map.mpr fun x _ => (h.act x).mono ?_⟩
  cases x <;> simp [actFactors, hT]

/-- The tensors of a layer without their first dimension. -/
theorem rows3 (h : cfg.Fits B T) (hL : 0 < cfg.L) : Cells.Fits [B, T, 3 * cfg.C] :=
  Cells.Fits.join (l := [B, T]) ((h.act .qkv).tail hL)

theorem rows4 (h : cfg.Fits B T) (hL : 0 < cfg.L) : Cells.Fits [B, T, 4 * cfg.C] :=
  Cells.Fits.join (l := [B, T]) ((h.act .fch).tail hL)

theorem attention (h : cfg.Fits B T) (hL : 0 < cfg.L) : AttentionFits B T cfg.C cfg.NH where
  rows := h.act .encoded
  rows3 := Nat.mul_comm 3 cfg.C ▸ h.rows3 hL
  scores := (h.act .preatt).tail hL
  channels := h.three.swap (by decide)

/-- What layer `l` computes is at most what the sizes have. -/
theorem layer (h : cfg.Fits B T) (hvalid : cfg.Valid) (hl : l < cfg.L) :
    ∀ factors ∈ cfg.layerProducts B T l, Cells.Fits factors := by
  have hC := hvalid.positive
  have hlayer {xs : List Nat} (h : Cells.Fits (cfg.L :: xs)) {k : Nat} (hk : k ≤ l) :
      Cells.Fits (k :: xs) := h.mono (.cons (hk.trans hl.le) (List.forall₂_refl xs))
  have hqkvw := hlayer (Cells.Fits.split (l := [cfg.L]) (h.param .qkvw) hC) le_rfl
  have hqkvb := hlayer (Cells.Fits.split (l := [cfg.L]) (h.param .qkvb) hC) le_rfl
  have hfcw := hlayer (Cells.Fits.split (l := [cfg.L]) (h.param .fcw) hC) le_rfl
  have hfcb := hlayer (Cells.Fits.split (l := [cfg.L]) (h.param .fcb) hC) le_rfl
  have hfcprojw := hlayer (Cells.Fits.split (l := [cfg.L, cfg.C]) (h.param .fcprojw) hC) le_rfl
  have hfch := (h.act .fch).tail (Nat.zero_lt_of_lt hl)
  simp only [layerProducts, List.forall_mem_cons, List.not_mem_nil, IsEmpty.forall_iff,
    implies_true, and_true]
  exact ⟨hlayer (h.act .residual3) (Nat.sub_le l 1), hlayer (h.param .ln1w) le_rfl, hqkvw, hqkvb,
    hlayer (h.param .attprojw) le_rfl, hfcw, hfcb, hfcprojw, hlayer (h.act .ln1) le_rfl,
    hlayer (h.act .ln1Mean) le_rfl, hlayer (h.act .qkv) le_rfl, hlayer (h.act .preatt) le_rfl,
    hlayer (h.act .fch) le_rfl, h.three, h.four, h.act .encoded, hfch⟩

/-- The pointer to the last residual stream.  Without layers the first factor is -1. -/
theorem last (h : cfg.Fits B T) :
    ∀ factors ∈ [[((cfg.L : Int) - 1).natAbs, B, T, cfg.C]], Cells.Fits factors := by
  have hone : Cells.Fits [1, B, T, cfg.C] := by
    have hrows : Cells.Fits [B, T, cfg.C] := h.act .encoded
    have hmax : 1 ≤ intMax := by decide
    simpa [Cells.Fits, fitsFrom, hmax] using hrows
  rw [List.forall_mem_singleton]
  cases hL : cfg.L with
  | zero => exact hone
  | succ L =>
      refine (h.act .residual3).mono (.cons ?_ (List.forall₂_refl [B, T, cfg.C]))
      omega

end Config.Fits

/-! ## Layers -/

section Layer

variable {model : Model F} {v : Nat → F} {B T l : Nat} {x : Nat → Stream F} {m : Memory F}

/-- All activations are allocated. -/
def Model.Ready (model : Model F) (B T : Nat) (m : Memory F) : Prop :=
  Allocated (array 0 (model.config.numActivations B T)) m

theorem Model.Ready.region (h : model.Ready B T m) (A : List Act) :
    Allocated (model.config.region B T A) m :=
  Allocated.mono h (region_subset A)

/-- A layer after the first reads what the layer before it wrote. -/
theorem residual_succ :
    model.config.residual B T (l + 1) = model.config.piece B T l .residual3 := by
  rw [Config.residual, if_neg (Nat.succ_ne_zero l), Nat.add_sub_cancel, Config.piece]
  simp only [Config.layerSizes, Nat.mul_assoc]

/-- The residual stream of a layer is no tensor that a layer writes before its end. -/
theorem residual_subset (hl : l ≤ model.config.L) :
    array (model.config.residual B T l) (B * T * model.config.C) ⊆
      model.config.region B T [.encoded, .residual3] := by
  cases l with
  | zero => exact tensor_subset .encoded
  | succ l =>
      rw [residual_succ]
      exact layer_subset hl .residual3

theorem layer_disjoint (hl : l < model.config.L) {A : List Act} {S : Set Nat} (x : Act)
    (hS : S ⊆ model.config.region B T A) (hx : x ∈ Act.layered := by decide)
    (hA : x ∉ A := by decide) :
    Disjoint S (array (model.config.piece B T l x) (model.config.layerSizes B T x)) := by
  have hsep : ∀ y ∈ A, y ∉ [x] := by
    intro y hy hyx
    rw [List.mem_singleton] at hyx
    exact hA (hyx ▸ hy)
  exact (region_disjoint hsep).mono hS (layer_subset hl x hx (List.mem_singleton_self x))

theorem Model.Ready.layer (h : model.Ready B T m) (hl : l < model.config.L) (x : Act)
    (hx : x ∈ Act.layered := by decide) :
    Allocated (array (model.config.piece B T l x) (model.config.layerSizes B T x)) m :=
  (h.region [x]).mono (layer_subset hl x hx (List.mem_singleton_self x))

theorem Model.Ready.changes {S : Set Nat} {m' : Memory F} (h : model.Ready B T m)
    (hm : Changes S m m') : model.Ready B T m' :=
  Allocated.changes h hm

/-- A stream in some tensors stays when other tensors change. -/
theorem stream_keep {A A' : List Act} {p c : Nat} {m' : Memory F} (h : Holds₃ p B T c x m)
    (hp : array p (B * T * c) ⊆ model.config.region B T A)
    (hm : Changes (model.config.region B T A') m m') (hA : ∀ y ∈ A, y ∉ A' := by decide) :
    Holds₃ p B T c x m' :=
  (dependsOn_holds₃ p B T c x).keep hm ((region_disjoint hA).mono_left hp) h

variable [FloatOps F]

/-- `layernorm_forward` from a residual stream to a tensor of a layer. -/
theorem wp_layerNorm (hload : model.Loaded v) (hfits : model.config.Fits B T)
    (hready : model.Ready B T m) (hl : l < model.config.L) {inp : Nat} {A : List Act}
    (hx : Holds₃ inp B T model.config.C x m)
    (hinp : array inp (B * T * model.config.C) ⊆ model.config.region B T A)
    (out mean_ rstd : Act) (w b : Param)
    (houtSize : model.config.layerSizes B T out = B * T * model.config.C)
    (hmeanSize : model.config.layerSizes B T mean_ = B * T)
    (hrstdSize : model.config.layerSizes B T rstd = B * T)
    (hw : model.config.paramSizes w = model.config.L * model.config.C)
    (hb : model.config.paramSizes b = model.config.L * model.config.C)
    (hout : out ∈ Act.layered := by decide) (hmean : mean_ ∈ Act.layered := by decide)
    (hrstd : rstd ∈ Act.layered := by decide) (houtA : out ∉ A := by decide)
    (hmeanA : mean_ ∉ A := by decide) (hrstdA : rstd ∉ A := by decide)
    (hmeanOut : mean_ ∉ [out] := by decide) (hrstdOut : rstd ∉ [out] := by decide) :
    Wp (layernormForward model.params (model.config.piece B T l out)
        (model.config.piece B T l mean_) (model.config.piece B T l rstd) inp
        (model.config.params w + l * model.config.C) (model.config.params b + l * model.config.C)
        B T model.config.C) (fun _ m' =>
      Holds₃ (model.config.piece B T l out) B T model.config.C (fun i t =>
        layernorm model.config.C (vector v (model.config.params w + l * model.config.C))
          (vector v (model.config.params b + l * model.config.C)) (x i t)) m' ∧
      Changes (model.config.region B T [out, mean_, rstd]) m m') m := by
  have halloc := hready.layer hl out hout
  have hallocMean := hready.layer hl mean_ hmean
  have hallocRstd := hready.layer hl rstd hrstd
  have hsep := layer_disjoint hl out hinp hout houtA
  have hsepMean := layer_disjoint hl mean_ hinp hmean hmeanA
  have hsepRstd := layer_disjoint hl rstd hinp hrstd hrstdA
  have hself : array (model.config.piece B T l out) _ ⊆ model.config.region B T [out] :=
    layer_subset hl out hout (List.mem_singleton_self out)
  have houtMean := layer_disjoint hl mean_ hself hmean hmeanOut
  have houtRstd := layer_disjoint hl rstd hself hrstd hrstdOut
  have hpart {a : Act} (ha : a ∈ Act.layered) (hmem : a ∈ [out, mean_, rstd]) :=
    layer_subset (B := B) (T := T) hl a ha hmem
  have hset := Set.union_subset (hpart hout (by simp))
    (Set.union_subset (hpart hmean (by simp)) (hpart hrstd (by simp)))
  rw [houtSize] at halloc hsep houtMean houtRstd hset
  rw [hmeanSize] at hallocMean hsepMean houtMean hset
  rw [hrstdSize] at hallocRstd hsepRstd houtRstd hset
  refine (wp_layernormForward hx (hload.layerVector w hw rfl hl) (hload.layerVector b hb rfl hl)
    halloc hallocMean hallocRstd hsep (Set.disjoint_union_right.mpr ⟨hsepMean, hsepRstd⟩)
    (Set.disjoint_union_right.mpr ⟨houtMean, houtRstd⟩) (hfits.act .encoded)).mono ?_
  rintro - m' ⟨hholds, hm'⟩
  exact ⟨hholds, hm'.mono hset⟩

/-- `matmul_forward` from one tensor of a layer to another. -/
theorem wp_layerMatmul (hload : model.Loaded v) (hready : model.Ready B T m)
    (hl : l < model.config.L) {inp : Act} {c oc : Nat}
    (hx : Holds₃ (model.config.piece B T l inp) B T c x m) (out : Act) (w b : Param)
    (hinpSize : model.config.layerSizes B T inp = B * T * c)
    (houtSize : model.config.layerSizes B T out = B * T * oc) {pw pb : Nat}
    (hw : model.config.paramSizes w = model.config.L * oc * c)
    (hb : model.config.paramSizes b = model.config.L * oc)
    (hpw : pw = model.config.params w + l * oc * c) (hpb : pb = model.config.params b + l * oc)
    (hrows : Fits [B, T, c]) (hrows' : Fits [B, T, oc]) (hweight : Fits [oc, c])
    (hinp : inp ∈ Act.layered := by decide) (hout : out ∈ Act.layered := by decide)
    (hne : out ∉ [inp] := by decide) :
    Wp (matmulForward model.params (model.config.piece B T l out) (model.config.piece B T l inp)
        pw (some pb) B T c oc) (fun _ m' =>
      Holds₃ (model.config.piece B T l out) B T oc
        (fun i t => matmul c (matrix v pw c) (vector v pb) (x i t)) m' ∧
      Changes (model.config.region B T [out]) m m') m := by
  have halloc := hready.layer hl out hout
  have hset : _ ⊆ model.config.region B T [out] :=
    layer_subset hl out hout (List.mem_singleton_self out)
  have hsep := layer_disjoint (B := B) (T := T) hl out
    (layer_subset hl inp hinp (List.mem_singleton_self inp)) hout hne
  rw [houtSize] at halloc hset hsep
  rw [hinpSize] at hsep
  have hbias : ∀ p ∈ some pb, Holds p oc (vector v pb) model.params := by
    intro p hp
    rw [← Option.mem_some.mp hp]
    exact hload.layerVector b hb hpb hl
  refine (wp_matmulForward hx (hload.layerMatrix w hw hpw hl) hbias
    (fun h => absurd h (Option.some_ne_none pb)) halloc hsep hrows hrows' hweight).mono ?_
  rintro - m' ⟨hholds, hm'⟩
  exact ⟨hholds, hm'.mono hset⟩

/-- `residual_forward` to a tensor of a layer. -/
theorem wp_layerResidual (hready : model.Ready B T m) (hl : l < model.config.L)
    {inp1 inp2 : Nat} {y : Nat → Stream F} {A A' : List Act}
    (hx : Holds₃ inp1 B T model.config.C x m) (hy : Holds₃ inp2 B T model.config.C y m)
    (hinp1 : array inp1 (B * T * model.config.C) ⊆ model.config.region B T A)
    (hinp2 : array inp2 (B * T * model.config.C) ⊆ model.config.region B T A')
    (out : Act) (hsize : model.config.layerSizes B T out = B * T * model.config.C)
    (hout : out ∈ Act.layered := by decide) (hA : out ∉ A := by decide)
    (hA' : out ∉ A' := by decide) :
    Wp (residualForward (model.config.piece B T l out) inp1 inp2 (B * T * model.config.C))
      (fun _ m' =>
        Holds₃ (model.config.piece B T l out) B T model.config.C
          (fun i t c => x i t c + y i t c) m' ∧
        Changes (model.config.region B T [out]) m m') m := by
  have halloc := hready.layer hl out hout
  have hset : _ ⊆ model.config.region B T [out] :=
    layer_subset hl out hout (List.mem_singleton_self out)
  have hsep1 := layer_disjoint hl out hinp1 hout hA
  have hsep2 := layer_disjoint hl out hinp2 hout hA'
  rw [hsize] at halloc hset hsep1 hsep2
  refine (wp_residualForward hx.flat hy.flat halloc hsep1 hsep2).mono ?_
  rintro - m' ⟨hholds, hm'⟩
  exact ⟨Holds.vectors hholds, hm'.mono hset⟩

/-- `attention_forward` in a layer. -/
theorem wp_layerAttention (hNH : model.config.NH ∣ model.config.C)
    (hfits : model.config.Fits B T) (hready : model.Ready B T m) (hl : l < model.config.L)
    (hx : Holds₃ (model.config.piece B T l .qkv) B T (3 * model.config.C) x m) :
    Wp (attentionForward (model.config.piece B T l .atty) (model.config.piece B T l .preatt)
        (model.config.piece B T l .att) (model.config.piece B T l .qkv) B T model.config.C
        model.config.NH) (fun _ m' =>
      Holds₃ (model.config.piece B T l .atty) B T model.config.C
        (fun b => attention model.config.C model.config.NH (x b)) m' ∧
      Changes (model.config.region B T [.atty, .preatt, .att]) m m') m := by
  have hqkv : array (model.config.piece B T l .qkv) (B * T * (3 * model.config.C)) ⊆
      model.config.region B T [.qkv] := layer_subset hl .qkv
  have hatty : array (model.config.piece B T l .atty) (B * T * model.config.C) ⊆
      model.config.region B T [.atty] := layer_subset hl .atty
  have hpreatt : array (model.config.piece B T l .preatt) (B * model.config.NH * T * T) ⊆
      model.config.region B T [.preatt] := layer_subset hl .preatt
  rw [Nat.mul_comm 3] at hqkv hx
  refine (wp_attentionForward hx (hready.layer hl .atty) (hready.layer hl .preatt)
    (hready.layer hl .att) (layer_disjoint hl .atty hqkv) (layer_disjoint hl .preatt hqkv)
    (layer_disjoint hl .att hqkv) (layer_disjoint hl .att hpreatt)
    (layer_disjoint hl .att hatty) (hfits.attention (Nat.zero_lt_of_lt hl)) hNH
    (layer_disjoint hl .preatt hatty)).mono ?_
  rintro - m' ⟨hholds, hm'⟩
  exact ⟨hholds, hm'.mono (Set.union_subset (layer_subset hl .atty)
    (Set.union_subset (layer_subset hl .preatt) (layer_subset hl .att)))⟩

/-- `gelu_forward` in a layer. -/
theorem wp_layerGelu (hready : model.Ready B T m) (hl : l < model.config.L)
    (hx : Holds₃ (model.config.piece B T l .fch) B T (4 * model.config.C) x m) :
    Wp (geluForward (model.config.piece B T l .fchGelu) (model.config.piece B T l .fch)
        (B * T * 4 * model.config.C)) (fun _ m' =>
      Holds₃ (model.config.piece B T l .fchGelu) B T (4 * model.config.C)
        (fun b t i => gelu (x b t i)) m' ∧
      Changes (model.config.region B T [.fchGelu]) m m') m := by
  have hfch : array (model.config.piece B T l .fch) (B * T * (4 * model.config.C)) ⊆
      model.config.region B T [.fch] := layer_subset hl .fch
  rw [Nat.mul_assoc (B * T) 4]
  refine (wp_geluForward hx.flat (hready.layer hl .fchGelu)
    (layer_disjoint hl .fchGelu hfch)).mono ?_
  rintro - m' ⟨hholds, hm'⟩
  exact ⟨Holds.vectors hholds, hm'.mono (layer_subset hl .fchGelu)⟩

/-- `attentionPart` with the pieces of the tensors. -/
theorem attentionPart_eq : attentionPart model B T l = (do
    let NH := model.config.NH
    let C := model.config.C
    let params := model.config.params
    let acts := model.config.piece B T l
    layernormForward model.params (acts .ln1) (acts .ln1Mean) (acts .ln1Rstd)
      (model.config.residual B T l) (params .ln1w + l * C) (params .ln1b + l * C) B T C
    matmulForward model.params (acts .qkv) (acts .ln1) (params .qkvw + l * 3 * C * C)
      (some (params .qkvb + l * 3 * C)) B T C (3 * C)
    attentionForward (acts .atty) (acts .preatt) (acts .att) (acts .qkv) B T C NH
    matmulForward model.params (acts .attproj) (acts .atty) (params .attprojw + l * C * C)
      (some (params .attprojb + l * C)) B T C C
    residualForward (acts .residual2) (model.config.residual B T l) (acts .attproj)
      (B * T * C)) := by
  simp only [attentionPart, Config.piece, Config.layerSizes, ← Nat.mul_assoc]

/-- `feedForwardPart` with the pieces of the tensors. -/
theorem feedForwardPart_eq : feedForwardPart model B T l = (do
    let C := model.config.C
    let params := model.config.params
    let acts := model.config.piece B T l
    layernormForward model.params (acts .ln2) (acts .ln2Mean) (acts .ln2Rstd) (acts .residual2)
      (params .ln2w + l * C) (params .ln2b + l * C) B T C
    matmulForward model.params (acts .fch) (acts .ln2) (params .fcw + l * 4 * C * C)
      (some (params .fcb + l * 4 * C)) B T C (4 * C)
    geluForward (acts .fchGelu) (acts .fch) (B * T * 4 * C)
    matmulForward model.params (acts .fcproj) (acts .fchGelu) (params .fcprojw + l * C * 4 * C)
      (some (params .fcprojb + l * C)) B T (4 * C) C
    residualForward (acts .residual3) (acts .residual2) (acts .fcproj) (B * T * C)) := by
  simp only [feedForwardPart, Config.piece, Config.layerSizes, ← Nat.mul_assoc]

/-- What a layer does up to the first residual. -/
theorem wp_attentionPart (hload : model.Loaded v) (hNH : model.config.NH ∣ model.config.C)
    (hfits : model.config.Fits B T) (hready : model.Ready B T m) (hl : l < model.config.L)
    (hx : Holds₃ (model.config.residual B T l) B T model.config.C x m) :
    Wp (attentionPart model B T l) (fun _ m' =>
      Holds₃ (model.config.piece B T l .residual2) B T model.config.C
        (fun b => attended model.config.C model.config.NH (model.config.weights v l) (x b)) m' ∧
      model.Ready B T m') m := by
  rw [attentionPart_eq]
  have hL : 0 < model.config.L := Nat.zero_lt_of_lt hl
  have hrows : Fits [B, T, model.config.C] := hfits.act .encoded
  have hres : array (model.config.residual B T l) (B * T * model.config.C) ⊆ _ :=
    residual_subset hl.le
  refine wp_bind ((wp_layerNorm hload hfits hready hl hx hres .ln1 .ln1Mean .ln1Rstd .ln1w .ln1b
    rfl rfl rfl rfl rfl).mono ?_)
  rintro - m₁ ⟨hln1, hm₁⟩
  have hready₁ := hready.changes hm₁
  have hx₁ := stream_keep hx hres hm₁
  refine wp_bind ((wp_layerMatmul hload hready₁ hl hln1 .qkv .qkvw .qkvb
    rfl rfl rfl rfl (by ring) (by ring) hrows (hfits.rows3 hL)
    ((hfits.param .qkvw).tail hL)).mono ?_)
  rintro - m₂ ⟨hqkv, hm₂⟩
  have hready₂ := hready₁.changes hm₂
  have hx₂ := stream_keep hx₁ hres hm₂
  refine wp_bind ((wp_layerAttention hNH hfits hready₂ hl hqkv).mono ?_)
  rintro - m₃ ⟨hatty, hm₃⟩
  have hready₃ := hready₂.changes hm₃
  have hx₃ := stream_keep hx₂ hres hm₃
  refine wp_bind ((wp_layerMatmul hload hready₃ hl hatty .attproj .attprojw .attprojb
    rfl rfl rfl rfl rfl rfl hrows hrows ((hfits.param .attprojw).tail hL)).mono ?_)
  rintro - m₄ ⟨hattproj, hm₄⟩
  have hready₄ := hready₃.changes hm₄
  have hx₄ := stream_keep hx₃ hres hm₄
  have hproj : array (model.config.piece B T l .attproj) (B * T * model.config.C) ⊆
      model.config.region B T [.attproj] := layer_subset hl .attproj
  refine (wp_layerResidual hready₄ hl hx₄ hattproj hres hproj .residual2 rfl).mono ?_
  rintro - m₅ ⟨hout, hm₅⟩
  exact ⟨hout, hready₄.changes hm₅⟩

/-- What a layer does after the first residual. -/
theorem wp_feedForwardPart (hload : model.Loaded v) (hfits : model.config.Fits B T)
    (hready : model.Ready B T m) (hl : l < model.config.L)
    (hx : Holds₃ (model.config.piece B T l .residual2) B T model.config.C x m) :
    Wp (feedForwardPart model B T l) (fun _ m' =>
      Holds₃ (model.config.residual B T (l + 1)) B T model.config.C
        (fun b => fedForward model.config.C (model.config.weights v l) (x b)) m' ∧
      model.Ready B T m') m := by
  rw [feedForwardPart_eq]
  have hL : 0 < model.config.L := Nat.zero_lt_of_lt hl
  have hrows : Fits [B, T, model.config.C] := hfits.act .encoded
  have hres : array (model.config.piece B T l .residual2) (B * T * model.config.C) ⊆
      model.config.region B T [.residual2] := layer_subset hl .residual2
  refine wp_bind ((wp_layerNorm hload hfits hready hl hx hres .ln2 .ln2Mean .ln2Rstd .ln2w .ln2b
    rfl rfl rfl rfl rfl).mono ?_)
  rintro - m₁ ⟨hln2, hm₁⟩
  have hready₁ := hready.changes hm₁
  have hx₁ := stream_keep hx hres hm₁
  refine wp_bind ((wp_layerMatmul hload hready₁ hl hln2 .fch .fcw .fcb
    rfl rfl rfl rfl (by ring) (by ring) hrows (hfits.rows4 hL)
    ((hfits.param .fcw).tail hL)).mono ?_)
  rintro - m₂ ⟨hfch, hm₂⟩
  have hready₂ := hready₁.changes hm₂
  have hx₂ := stream_keep hx₁ hres hm₂
  refine wp_bind ((wp_layerGelu hready₂ hl hfch).mono ?_)
  rintro - m₃ ⟨hgelu, hm₃⟩
  have hready₃ := hready₂.changes hm₃
  have hx₃ := stream_keep hx₂ hres hm₃
  refine wp_bind ((wp_layerMatmul hload hready₃ hl hgelu .fcproj .fcprojw .fcprojb
    rfl rfl rfl rfl (by ring) rfl (hfits.rows4 hL) hrows
    ((hfits.param .fcprojw).tail hL)).mono ?_)
  rintro - m₄ ⟨hfcproj, hm₄⟩
  have hready₄ := hready₃.changes hm₄
  have hx₄ := stream_keep hx₃ hres hm₄
  have hproj : array (model.config.piece B T l .fcproj) (B * T * model.config.C) ⊆
      model.config.region B T [.fcproj] := layer_subset hl .fcproj
  refine (wp_layerResidual hready₄ hl hx₄ hfcproj hres hproj .residual3 rfl).mono ?_
  rintro - m₅ ⟨hout, hm₅⟩
  refine ⟨?_, hready₄.changes hm₅⟩
  rw [residual_succ]
  exact hout

/-- What a layer does. -/
theorem wp_layerForward (hload : model.Loaded v) (hvalid : model.config.Valid)
    (hfits : model.config.Fits B T) (hready : model.Ready B T m) (hl : l < model.config.L)
    (hx : Holds₃ (model.config.residual B T l) B T model.config.C x m) :
    Wp (layerForward model B T l) (fun _ m' =>
      Holds₃ (model.config.residual B T (l + 1)) B T model.config.C
        (fun b => block model.config.C model.config.NH (model.config.weights v l) (x b)) m' ∧
      model.Ready B T m') m := by
  refine wp_bind (wp_ints (hfits.layer hvalid hl) ?_)
  refine wp_bind ((wp_attentionPart hload hvalid.channels hfits hready hl hx).mono ?_)
  rintro - m₁ ⟨hres, hready₁⟩
  exact wp_feedForwardPart hload hfits hready₁ hl hres

end Layer

/-! ## The forward pass -/

section Forward

variable {model : Model F} {v : Nat → F} {B T : Nat} {m : Memory F}

/-- The pointer to the last residual stream.  Without layers it is the embedding, which is
the tensor before `residual3` then. -/
theorem residual_last : model.config.acts B T .residual3 +
    model.config.L * B * T * model.config.C - B * T * model.config.C =
      model.config.residual B T model.config.L := by
  cases hL : model.config.L with
  | zero =>
      simp [Config.residual, Config.acts, place, Act.all, Config.actSizes, Config.actFactors,
        product, hL]
  | succ L =>
      rw [Config.residual, if_neg (Nat.succ_ne_zero L), Nat.add_sub_cancel]
      have hstep : (L + 1) * B * T * model.config.C =
          L * B * T * model.config.C + B * T * model.config.C := by ring
      omega

variable [FloatOps F]

/-- The forward pass leaves the probabilities of the network in `probs`. -/
theorem wp_forwardPass {inputs : Memory Int} {tokens : Nat → Nat → Nat} (hload : model.Loaded v)
    (hvalid : model.config.Valid) (hfits : model.config.Fits B T) (hT : T ≤ model.config.maxT)
    (hin : ∀ b < B, ∀ t < T, inputs (b * T + t) = .value (tokens b t))
    (htokens : ∀ b < B, ∀ t < T, tokens b t < model.config.V) (hready : model.Ready B T m) :
    Wp (forwardPass model inputs B T) (fun _ m' =>
      Holds₃ (model.config.acts B T .probs) B T model.config.V
        (fun b => (model.config.network v).probabilities (tokens b)) m') m := by
  have htensor (x : Act) : array (model.config.acts B T x) (model.config.actSizes B T x) ⊆
      model.config.region B T [x] := tensor_subset x (List.mem_singleton_self x)
  have hsep {S : Set Nat} {A : List Act} (x : Act) (hS : S ⊆ model.config.region B T A)
      (hA : ∀ y ∈ A, y ∉ [x] := by decide) :
      Disjoint S (array (model.config.acts B T x) (model.config.actSizes B T x)) :=
    (region_disjoint hA).mono hS (htensor x)
  have halloc {m' : Memory F} (h : model.Ready B T m') (x : Act) :
      Allocated (array (model.config.acts B T x) (model.config.actSizes B T x)) m' :=
    (h.region [x]).mono (htensor x)
  refine wp_bind ((wp_encoderForward hin htokens (hload.matrix .wte rfl le_rfl)
    (hload.matrix .wpe rfl hT) (halloc hready .encoded) (hfits.act .encoded)
    (hfits.param .wte)).mono ?_)
  rintro - m₁ ⟨hencoded, hm₁⟩
  -- the residual stream is the stream of the network after as many blocks
  refine wp_bind ((wp_loop (fun k _ m' =>
    Holds₃ (model.config.residual B T k) B T model.config.C (fun b =>
      blocks model.config.C model.config.NH k (model.config.weights v)
        ((model.config.network v).embedding (tokens b))) m' ∧ model.Ready B T m')
    ⟨hencoded, hready.changes hm₁⟩ ?_).mono ?_)
  · rintro l hl - m' ⟨hres, hready'⟩
    refine (wp_layerForward hload hvalid hfits hready' hl hres).mono ?_
    rintro - m'' ⟨hnext, hready''⟩
    refine ⟨?_, hready''⟩
    simpa only [blocks, fold_succ] using hnext
  rintro - m₂ ⟨hres, hready₂⟩
  refine wp_bind (wp_ints hfits.last ?_)
  dsimp only
  rw [residual_last]
  have hlast : array (model.config.residual B T model.config.L) (B * T * model.config.C) ⊆ _ :=
    residual_subset le_rfl
  refine wp_bind ((wp_layernormForward hres (hload.vector .lnfw subset_rfl)
    (hload.vector .lnfb subset_rfl) (halloc hready₂ .lnf) (halloc hready₂ .lnfMean)
    (halloc hready₂ .lnfRstd) (hsep .lnf hlast)
    (Set.disjoint_union_right.mpr ⟨hsep .lnfMean hlast,
      hsep .lnfRstd hlast⟩)
    (Set.disjoint_union_right.mpr ⟨hsep .lnfMean (htensor .lnf),
      hsep .lnfRstd (htensor .lnf)⟩) (hfits.act .lnf)).mono ?_)
  rintro - m₃ ⟨hlnf, hm₃⟩
  have hready₃ := hready₂.changes hm₃
  refine wp_bind ((wp_matmulForward hlnf (hload.matrix .wte rfl le_rfl)
    (fun p hp => absurd hp (Option.not_mem_none p)) (fun _ _ => rfl) (halloc hready₃ .logits)
    (hsep .logits (htensor .lnf)) (hfits.act .lnf) (hfits.act .logits)
    (hfits.param .wte)).mono ?_)
  rintro - m₄ ⟨hlogits, hm₄⟩
  have hready₄ := hready₃.changes hm₄
  refine (wp_softmaxForward hlogits (halloc hready₄ .probs)
    (hsep .probs (htensor .logits)) (hfits.act .probs)).mono ?_
  rintro - m₅ ⟨hprobs, -⟩
  exact hprobs

end Forward

end OsCourse.Gpt
