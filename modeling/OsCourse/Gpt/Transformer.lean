import OsCourse.Gpt.Layers

/-!
# The transformer

What the layers compute, for one sequence of tokens of any length.  A *stream* has a
vector for each position, and a layer takes streams to streams.  There are no arrays
here, no batch and no bound on the positions.

Every layer is `Causal`: its vector at a position depends on the vectors up to that
position only.  So do the probabilities at the end (`probabilities_congr`).
-/

namespace OsCourse.Gpt

open OsCourse.Cells FloatOps

variable {F : Type} [FloatOps F]

/-- A vector of channels for each position. -/
abbrev Stream (F : Type) := Nat → Nat → F

/-! ## Vectors -/

/-- The mean of `C` channels. -/
def mean (C : Nat) (x : Nat → F) : F := fold C (fun i m => m + x i) zero / ofInt C

/-- The variance of `C` channels. -/
def variance (C : Nat) (x : Nat → F) : F :=
  fold C (fun i v => v + (x i - mean C x) * (x i - mean C x)) zero / ofInt C

/-- The reciprocal of the standard deviation. -/
def reciprocalStd (C : Nat) (x : Nat → F) : F := one / sqrtf (variance C x + eps)

/-- A vector that is normalized, scaled and shifted. -/
def layernorm (C : Nat) (w b x : Nat → F) (i : Nat) : F :=
  reciprocalStd C x * (x i - mean C x) * w i + b i

/-- A vector multiplied with a matrix, row by row. -/
def matmul (C : Nat) (w : Nat → Nat → F) (b x : Nat → F) (o : Nat) : F :=
  fold C (fun i val => val + x i * w o i) (b o)

/-- The largest of `n` numbers. -/
def largest (n : Nat) (x : Nat → F) : F :=
  fold n (fun i maxval => if lt maxval (x i) then x i else maxval) lowest

theorem largest_succ (n : Nat) (x : Nat → F) :
    largest (n + 1) x = if lt (largest n x) (x n) then x n else largest n x :=
  fold_succ n _ _

/-- The exponential of a number, relative to the largest. -/
def exponential (n : Nat) (x : Nat → F) (i : Nat) : F := expf (x i - largest n x)

/-- The sum of the exponentials. -/
def exponentialSum (n : Nat) (x : Nat → F) : F :=
  fold n (fun i sum => sum + exponential n x i) zero

/-- The softmax of `n` numbers. -/
def softmax (n : Nat) (x : Nat → F) (i : Nat) : F := exponential n x i / exponentialSum n x

/-! ## Attention -/

/-- The product of a query at `t` and a key at `t2`, for the head that starts at channel
`c`. -/
def score (C hs : Nat) (qkv : Stream F) (t c t2 : Nat) : F :=
  fold hs (fun i val => val + qkv t (c + i) * qkv t2 (c + C + i)) zero * attentionScale hs

/-- The reciprocal of a sum of exponentials. -/
def inverseSum (sum : F) : F := if isZero sum then zero else one / sum

/-- The weight of position `t2` for a query at `t`. -/
def attentionWeight (C hs : Nat) (qkv : Stream F) (t c t2 : Nat) : F :=
  exponential (t + 1) (score C hs qkv t c) t2 *
    inverseSum (exponentialSum (t + 1) (score C hs qkv t c))

/-- The weighted values of the head that starts at channel `c`. -/
def weightedValue (C hs : Nat) (qkv : Stream F) (t c i : Nat) : F :=
  fold (t + 1) (fun t2 o => o + attentionWeight C hs qkv t c t2 * qkv t2 (c + C * 2 + i)) zero

/-- The output of all heads. -/
def attention (C NH : Nat) (qkv : Stream F) : Stream F := fun t c =>
  weightedValue C (C / NH) qkv t (c / (C / NH) * (C / NH)) (c % (C / NH))

/-! ## Layers -/

/-- The weights of one layer. -/
structure Weights (F : Type) where
  /-- The scale and the shift of the first norm. -/
  ln1 : (Nat → F) × (Nat → F)
  /-- The matrix and the bias for queries, keys and values. -/
  qkv : (Nat → Nat → F) × (Nat → F)
  /-- The projection of the attention. -/
  attproj : (Nat → Nat → F) × (Nat → F)
  /-- The scale and the shift of the second norm. -/
  ln2 : (Nat → F) × (Nat → F)
  /-- The first matrix of the feed-forward part. -/
  fc : (Nat → Nat → F) × (Nat → F)
  /-- The second matrix of the feed-forward part. -/
  fcproj : (Nat → Nat → F) × (Nat → F)

/-- The part of a layer up to the first residual. -/
def attended (C NH : Nat) (w : Weights F) (x : Stream F) : Stream F := fun t c =>
  x t c + matmul C w.attproj.1 w.attproj.2
    (attention C NH (fun t => matmul C w.qkv.1 w.qkv.2 (layernorm C w.ln1.1 w.ln1.2 (x t))) t) c

/-- The part of a layer after the first residual. -/
def fedForward (C : Nat) (w : Weights F) (x : Stream F) : Stream F := fun t c =>
  x t c + matmul (4 * C) w.fcproj.1 w.fcproj.2
    (fun i => gelu (matmul C w.fc.1 w.fc.2 (layernorm C w.ln2.1 w.ln2.2 (x t)) i)) c

/-- One layer. -/
def block (C NH : Nat) (w : Weights F) (x : Stream F) : Stream F :=
  fedForward C w (attended C NH w x)

/-- All layers. -/
def blocks (C NH L : Nat) (w : Nat → Weights F) (x : Stream F) : Stream F :=
  fold L (fun l x => block C NH (w l) x) x

/-- The weights of the model, and the hyperparameters. -/
structure Network (F : Type) where
  /-- The size of the vocabulary. -/
  V : Nat
  /-- The number of layers. -/
  L : Nat
  /-- The number of heads. -/
  NH : Nat
  /-- The number of channels. -/
  C : Nat
  /-- The embedding of tokens. -/
  wte : Nat → Nat → F
  /-- The embedding of positions. -/
  wpe : Nat → Nat → F
  /-- The weights of the layers. -/
  layer : Nat → Weights F
  /-- The scale and the shift of the last norm. -/
  lnf : (Nat → F) × (Nat → F)

/-- The stream of the embedded tokens. -/
def Network.embedding (n : Network F) (tokens : Nat → Nat) : Stream F := fun t c =>
  n.wte (tokens t) c + n.wpe t c

/-- The scores of the vocabulary at each position. -/
def Network.logits (n : Network F) (tokens : Nat → Nat) : Stream F := fun t =>
  matmul n.C n.wte (fun _ => zero)
    (layernorm n.C n.lnf.1 n.lnf.2 (blocks n.C n.NH n.L n.layer (n.embedding tokens) t))

/-- The probabilities of the next token at each position. -/
def Network.probabilities (n : Network F) (tokens : Nat → Nat) : Stream F := fun t =>
  softmax n.V (n.logits tokens t)

/-! ## Causality -/

/-- The vectors up to a position determine the vector at that position. -/
def Causal (f : Stream F → Stream F) : Prop :=
  ∀ (x y : Stream F) (t : Nat), (∀ t' ≤ t, x t' = y t') → f x t = f y t

omit [FloatOps F] in
theorem Causal.comp {f g : Stream F → Stream F} (hf : Causal f) (hg : Causal g) :
    Causal (f ∘ g) := by
  intro x y t h
  refine hf _ _ t fun t' ht' => ?_
  exact hg x y t' fun s hs => h s (hs.trans ht')

omit [FloatOps F] in
/-- A layer that works on each position alone. -/
theorem causal_pointwise (f : (Nat → F) → Nat → F) : Causal fun x t => f (x t) := by
  intro x y t h
  exact congrArg f (h t le_rfl)

theorem score_congr {C hs : Nat} {x y : Stream F} {t t2 : Nat} (h : ∀ t' ≤ t, x t' = y t')
    (ht2 : t2 ≤ t) (c : Nat) : score C hs x t c t2 = score C hs y t c t2 := by
  rw [score, score, h t le_rfl, h t2 ht2]

theorem largest_congr {n : Nat} {x y : Nat → F} (h : ∀ i < n, x i = y i) :
    largest n x = largest n y := by
  refine fold_congr (fun i hi maxval => ?_) _
  rw [h i hi]

theorem exponential_congr {n : Nat} {x y : Nat → F} (h : ∀ i < n, x i = y i) {i : Nat}
    (hi : i < n) : exponential n x i = exponential n y i := by
  rw [exponential, exponential, largest_congr h, h i hi]

theorem exponentialSum_congr {n : Nat} {x y : Nat → F} (h : ∀ i < n, x i = y i) :
    exponentialSum n x = exponentialSum n y := by
  refine fold_congr (fun i hi sum => ?_) _
  rw [exponential_congr h hi]

theorem attentionWeight_congr {C hs : Nat} {x y : Stream F} {t t2 : Nat}
    (h : ∀ t' ≤ t, x t' = y t') (ht2 : t2 ≤ t) (c : Nat) :
    attentionWeight C hs x t c t2 = attentionWeight C hs y t c t2 := by
  have hscore : ∀ i < t + 1, score C hs x t c i = score C hs y t c i := fun i hi =>
    score_congr h (Nat.lt_succ_iff.mp hi) c
  rw [attentionWeight, attentionWeight, exponential_congr hscore (Nat.lt_succ_iff.mpr ht2),
    exponentialSum_congr hscore]

theorem causal_attention (C NH : Nat) : Causal (attention C NH : Stream F → Stream F) := by
  intro x y t h
  funext c
  refine fold_congr (fun t2 ht2 o => ?_) _
  have ht2' : t2 ≤ t := Nat.lt_succ_iff.mp ht2
  rw [attentionWeight_congr h ht2', h t2 ht2']

/-- A layer with a residual connection. -/
theorem Causal.residual {f : Stream F → Stream F} (hf : Causal f) :
    Causal fun x t c => x t c + f x t c := by
  intro x y t h
  funext c
  dsimp only
  rw [h t le_rfl, hf x y t h]

theorem causal_attended (C NH : Nat) (w : Weights F) : Causal (attended C NH w) :=
  ((causal_pointwise (matmul C w.attproj.1 w.attproj.2)).comp
    ((causal_attention C NH).comp
      (causal_pointwise fun v =>
        matmul C w.qkv.1 w.qkv.2 (layernorm C w.ln1.1 w.ln1.2 v)))).residual

theorem causal_fedForward (C : Nat) (w : Weights F) : Causal (fedForward C w) :=
  (causal_pointwise fun v => matmul (4 * C) w.fcproj.1 w.fcproj.2 fun i =>
    gelu (matmul C w.fc.1 w.fc.2 (layernorm C w.ln2.1 w.ln2.2 v) i)).residual

theorem causal_block (C NH : Nat) (w : Weights F) : Causal (block C NH w) :=
  (causal_fedForward C w).comp (causal_attended C NH w)

theorem causal_blocks (C NH L : Nat) (w : Nat → Weights F) : Causal (blocks C NH L w) := by
  induction L with
  | zero =>
      intro x y t h
      exact h t le_rfl
  | succ L ih =>
      have hstep : blocks C NH (L + 1) w = block C NH (w L) ∘ blocks C NH L w :=
        funext fun x => fold_succ L _ x
      rw [hstep]
      exact (causal_block C NH (w L)).comp ih

/-- The probabilities at a position depend on the tokens up to it. -/
theorem probabilities_congr (n : Network F) {tokens tokens' : Nat → Nat} {t : Nat}
    (h : ∀ t' ≤ t, tokens t' = tokens' t') :
    n.probabilities tokens t = n.probabilities tokens' t := by
  have hembed : ∀ t' ≤ t, n.embedding tokens t' = n.embedding tokens' t' := by
    intro t' ht'
    funext c
    rw [Network.embedding, Network.embedding, h t' ht']
  have hblocks := causal_blocks n.C n.NH n.L n.layer _ _ t hembed
  rw [Network.probabilities, Network.probabilities, Network.logits, Network.logits, hblocks]

end OsCourse.Gpt
