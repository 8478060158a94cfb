import OsCourse.Lib.Cells

/-!
# The layers of GPT-2

The forward passes of the layers, as `gpt.c` has them: loops over flat arrays of floats.
An array is an address in a memory.  The activations are in the memory that a program
writes to, and the parameters and the tokens in memories of their own.

The floating-point numbers are a type with the operations and the constants that the
code uses, and no law about them.  Sums are made in the order of the loops.  The
integers of the code are natural numbers.  `ints` has the products in the pointers and
indices of a loop body, and a product that is no `int` is a fault.
-/

namespace OsCourse.Gpt

open OsCourse.Cells

/-- The floating-point operations and constants of the code. -/
class FloatOps (F : Type) extends Add F, Sub F, Mul F, Div F where
  /-- `0.0f`. -/
  zero : F
  /-- `1.0f`. -/
  one : F
  /-- `0.5f`. -/
  half : F
  /-- `1e-5f`. -/
  eps : F
  /-- `-10000.0f`. -/
  lowest : F
  /-- `0.044715f`. -/
  cubeFactor : F
  /-- `GELU_SCALING_FACTOR`. -/
  geluScalingFactor : F
  /-- `a < b`. -/
  lt : F → F → Bool
  /-- `a == 0.0f`. -/
  isZero : F → Bool
  sqrtf : F → F
  expf : F → F
  tanhf : F → F
  /-- The conversion of an `int`. -/
  ofInt : Nat → F
  /-- `1.0 / sqrtf(hs)`, rounded to a float. -/
  attentionScale : Nat → F

open FloatOps

/-- The numbers of the code. -/
instance : FloatOps Float32 where
  zero := 0.0
  one := 1.0
  half := 0.5
  eps := 1e-5
  lowest := -10000.0
  cubeFactor := 0.044715
  geluScalingFactor := (2.0 / 3.14159265358979323846 : Float).toFloat32.sqrt
  lt a b := decide (a < b)
  isZero a := a == 0.0
  sqrtf := Float32.sqrt
  expf := Float32.exp
  tanhf := Float32.tanh
  ofInt n := n.toFloat32
  attentionScale hs := (1.0 / hs.toFloat32.sqrt.toFloat).toFloat32

variable {F : Type} [FloatOps F] (params : Memory F)

/-- `encoder_forward`. -/
def encoderForward (out : Nat) (inp : Memory Int) (wte wpe : Nat) (B T C : Nat) :
    Program F Unit :=
  each B fun b => each T fun t => do
    ints [[b, T, C], [t, C], [b * T + t]]
    let ix ← loadFrom inp ↑(b * T + t)
    ints [[ix.natAbs, C]]
    each C fun i => do
      let e ← loadFrom params (wte + ix * C + i)
      let p ← loadFrom params ↑(wpe + t * C + i)
      store (out + (b * T * C + t * C) + i) (e + p)

/-- `layernorm_forward`. -/
def layernormForward (out mean rstd inp weight bias : Nat) (B T C : Nat) : Program F Unit :=
  each B fun b => each T fun t => do
    ints [[b, T, C], [t, C], [b * T + t]]
    let x := inp + (b * T * C + t * C)
    let m ← loop C (fun i m => do
      let xi ← load (x + i)
      pure (m + xi)) zero
    let m := m / ofInt C
    let v ← loop C (fun i v => do
      let xi ← load (x + i)
      let xshift := xi - m
      pure (v + xshift * xshift)) zero
    let v := v / ofInt C
    let s := one / sqrtf (v + eps)
    each C fun i => do
      let xi ← load (x + i)
      let n := s * (xi - m)
      let w ← loadFrom params ↑(weight + i)
      let bi ← loadFrom params ↑(bias + i)
      store (out + (b * T * C + t * C) + i) (n * w + bi)
    store (mean + (b * T + t)) m
    store (rstd + (b * T + t)) s

/-- `(bias != NULL) ? bias[o] : 0.0f`. -/
def biasAt (bias : Option Nat) (o : Nat) : Program F F :=
  match bias with
  | some bias => loadFrom params ↑(bias + o)
  | none => pure zero

/-- `matmul_forward`.  `bias` may be a null pointer. -/
def matmulForward (out inp weight : Nat) (bias : Option Nat) (B T C OC : Nat) : Program F Unit :=
  each B fun b => each T fun t => do
    ints [[b, T, OC], [t, OC], [b, T, C], [t, C]]
    each OC fun o => do
      let val ← biasAt params bias o
      ints [[o, C]]
      let val ← loop C (fun i val => do
        let x ← load (inp + (b * T * C + t * C) + i)
        let w ← loadFrom params ↑(weight + o * C + i)
        pure (val + x * w)) val
      store (out + (b * T * OC + t * OC) + o) val

/-- Pass 1 of `attention_forward`: query dot key, and the largest of them.  `key t2` is
the key at `t2`. -/
def attentionScores (preatt query : Nat) (key : Nat → Nat) (hs t : Nat) : Program F F :=
  loop (t + 1) (fun t2 maxval => do
    let val ← loop hs (fun i val => do
      let q ← load (query + i)
      let k ← load (key t2 + i)
      pure (val + q * k)) zero
    let val := val * attentionScale hs
    store (preatt + t2) val
    pure (if lt maxval val then val else maxval)) lowest

/-- Pass 2: the exponentials and their sum. -/
def attentionExponentials (preatt att t : Nat) (maxval : F) : Program F F :=
  loop (t + 1) (fun t2 expsum => do
    let p ← load (preatt + t2)
    let expv := expf (p - maxval)
    store (att + t2) expv
    pure (expsum + expv)) zero

/-- Pass 3: the softmax, and zeros for later positions. -/
def attentionNormalize (att T t : Nat) (expsumInv : F) : Program F Unit :=
  each T fun t2 =>
    if t2 ≤ t then do
      let a ← load (att + t2)
      store (att + t2) (a * expsumInv)
    else store (att + t2) zero

/-- Pass 4: the weighted values.  `value t2` is the value at `t2`. -/
def attentionAccumulate (out att : Nat) (value : Nat → Nat) (hs t : Nat) : Program F Unit := do
  each hs fun i => store (out + i) zero
  each (t + 1) fun t2 => do
    let a ← load (att + t2)
    each hs fun i => do
      let o ← load (out + i)
      let v ← load (value t2 + i)
      store (out + i) (o + a * v)

/-- The body of the loops of `attention_forward`. -/
def attentionHead (out preatt att inp : Nat) (T C NH b t h : Nat) : Program F Unit := do
  let C3 := C * 3
  let hs := C / NH
  -- `t2 * C3` is at most `t * C3`
  ints [[b, T, C3], [t, C3], [h, hs], [b, NH, T, T], [h, T, T], [t, T], [C, 2], [b, T, C], [t, C]]
  let query := inp + (b * T * C3 + t * C3 + h * hs)
  let preatt := preatt + (b * NH * T * T + h * T * T + t * T)
  let att := att + (b * NH * T * T + h * T * T + t * T)
  let key := fun t2 => inp + (b * T * C3 + t2 * C3 + (h * hs + C))
  let maxval ← attentionScores preatt query key hs t
  let expsum ← attentionExponentials preatt att t maxval
  let expsumInv := if isZero expsum then zero else one / expsum
  attentionNormalize att T t expsumInv
  let out := out + (b * T * C + t * C + h * hs)
  let value := fun t2 => inp + (b * T * C3 + t2 * C3 + (h * hs + C * 2))
  attentionAccumulate out att value hs t

/-- `attention_forward`. -/
def attentionForward (out preatt att inp : Nat) (B T C NH : Nat) : Program F Unit := do
  ints [[C, 3]]
  each B fun b => each T fun t => each NH fun h => attentionHead out preatt att inp T C NH b t h

/-- The value that `gelu_forward` computes for one element. -/
def gelu (x : F) : F :=
  let cube := cubeFactor * x * x * x
  half * x * (one + tanhf (geluScalingFactor * (x + cube)))

/-- `gelu_forward`. -/
def geluForward (out inp N : Nat) : Program F Unit :=
  each N fun i => do
    let x ← load (inp + i)
    store (out + i) (gelu x)

/-- `residual_forward`. -/
def residualForward (out inp1 inp2 N : Nat) : Program F Unit :=
  each N fun i => do
    let x ← load (inp1 + i)
    let y ← load (inp2 + i)
    store (out + i) (x + y)

/-- `softmax_forward`. -/
def softmaxForward (probs logits : Nat) (B T V : Nat) : Program F Unit :=
  each B fun b => each T fun t => do
    ints [[b, T, V], [t, V]]
    let logits := logits + (b * T * V + t * V)
    let probs := probs + (b * T * V + t * V)
    let maxval ← loop V (fun i maxval => do
      let x ← load (logits + i)
      pure (if lt maxval x then x else maxval)) lowest
    let sum ← loop V (fun i sum => do
      let x ← load (logits + i)
      store (probs + i) (expf (x - maxval))
      let p ← load (probs + i)
      pure (sum + p)) zero
    each V fun i => do
      let p ← load (probs + i)
      store (probs + i) (p / sum)

end OsCourse.Gpt
