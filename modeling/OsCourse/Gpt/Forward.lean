import OsCourse.Gpt.Layers
import OsCourse.Lib.CString

/-!
# The model and its forward pass

`gpt.c` keeps all parameters in one allocation, and all activations in another.  The
tensors are arrays in them, placed one after the other in the order of the structs
`ParameterTensors` and `ActivationTensors`.  `gpt2_forward` runs the layers on these
arrays, and `main` calls it once for each token that it generates.

A load before the first store, an access outside of an allocation and a product of
`int`s that overflows are faults.
-/

namespace OsCourse.Gpt

open OsCourse.Cells FloatOps

/-! ## Tensors -/

/-- The fields of `ParameterTensors`. -/
inductive Param where
  | wte | wpe | ln1w | ln1b | qkvw | qkvb | attprojw | attprojb | ln2w | ln2b | fcw | fcb
  | fcprojw | fcprojb | lnfw | lnfb
deriving DecidableEq

/-- `ptrs` of `malloc_and_point_parameters`. -/
def Param.all : List Param :=
  [.wte, .wpe, .ln1w, .ln1b, .qkvw, .qkvb, .attprojw, .attprojb, .ln2w, .ln2b, .fcw, .fcb,
    .fcprojw, .fcprojb, .lnfw, .lnfb]

/-- The fields of `ActivationTensors`. -/
inductive Act where
  | encoded | ln1 | ln1Mean | ln1Rstd | qkv | atty | preatt | att | attproj | residual2 | ln2
  | ln2Mean | ln2Rstd | fch | fchGelu | fcproj | residual3 | lnf | lnfMean | lnfRstd | logits
  | probs | losses
deriving DecidableEq

/-- `ptrs` of `malloc_and_point_activations`. -/
def Act.all : List Act :=
  [.encoded, .ln1, .ln1Mean, .ln1Rstd, .qkv, .atty, .preatt, .att, .attproj, .residual2, .ln2,
    .ln2Mean, .ln2Rstd, .fch, .fchGelu, .fcproj, .residual3, .lnf, .lnfMean, .lnfRstd, .logits,
    .probs, .losses]

/-- `GPT2Config`. -/
structure Config where
  /-- `max_seq_len`. -/
  maxT : Nat
  /-- `vocab_size`. -/
  V : Nat
  /-- `num_layers`. -/
  L : Nat
  /-- `num_heads`. -/
  NH : Nat
  /-- `channels`. -/
  C : Nat

/-- The factors of `param_sizes`. -/
def Config.paramFactors (cfg : Config) : Param → List Nat
  | .wte => [cfg.V, cfg.C]
  | .wpe => [cfg.maxT, cfg.C]
  | .ln1w => [cfg.L, cfg.C]
  | .ln1b => [cfg.L, cfg.C]
  | .qkvw => [cfg.L, 3 * cfg.C, cfg.C]
  | .qkvb => [cfg.L, 3 * cfg.C]
  | .attprojw => [cfg.L, cfg.C, cfg.C]
  | .attprojb => [cfg.L, cfg.C]
  | .ln2w => [cfg.L, cfg.C]
  | .ln2b => [cfg.L, cfg.C]
  | .fcw => [cfg.L, 4 * cfg.C, cfg.C]
  | .fcb => [cfg.L, 4 * cfg.C]
  | .fcprojw => [cfg.L, cfg.C, 4 * cfg.C]
  | .fcprojb => [cfg.L, cfg.C]
  | .lnfw => [cfg.C]
  | .lnfb => [cfg.C]

/-- `param_sizes`. -/
def Config.paramSizes (cfg : Config) (x : Param) : Nat := product (cfg.paramFactors x)

/-- The products in `param_sizes`. -/
def Config.paramProducts (cfg : Config) : List (List Nat) :=
  [3, cfg.C] :: [4, cfg.C] :: Param.all.map cfg.paramFactors

/-- The factors of `act_sizes`. -/
def Config.actFactors (cfg : Config) (B T : Nat) : Act → List Nat
  | .encoded => [B, T, cfg.C]
  | .ln1 => [cfg.L, B, T, cfg.C]
  | .ln1Mean => [cfg.L, B, T]
  | .ln1Rstd => [cfg.L, B, T]
  | .qkv => [cfg.L, B, T, 3, cfg.C]
  | .atty => [cfg.L, B, T, cfg.C]
  | .preatt => [cfg.L, B, cfg.NH, T, T]
  | .att => [cfg.L, B, cfg.NH, T, T]
  | .attproj => [cfg.L, B, T, cfg.C]
  | .residual2 => [cfg.L, B, T, cfg.C]
  | .ln2 => [cfg.L, B, T, cfg.C]
  | .ln2Mean => [cfg.L, B, T]
  | .ln2Rstd => [cfg.L, B, T]
  | .fch => [cfg.L, B, T, 4, cfg.C]
  | .fchGelu => [cfg.L, B, T, 4, cfg.C]
  | .fcproj => [cfg.L, B, T, cfg.C]
  | .residual3 => [cfg.L, B, T, cfg.C]
  | .lnf => [B, T, cfg.C]
  | .lnfMean => [B, T]
  | .lnfRstd => [B, T]
  | .logits => [B, T, cfg.V]
  | .probs => [B, T, cfg.V]
  | .losses => [B, T]

/-- `act_sizes`. -/
def Config.actSizes (cfg : Config) (B T : Nat) (x : Act) : Nat := product (cfg.actFactors B T x)

/-- The products in `act_sizes`. -/
def Config.actProducts (cfg : Config) (B T : Nat) : List (List Nat) :=
  Act.all.map (cfg.actFactors B T)

/-- `num_parameters`. -/
def Config.numParameters (cfg : Config) : Nat := (Param.all.map cfg.paramSizes).sum

/-- `num_activations`. -/
def Config.numActivations (cfg : Config) (B T : Nat) : Nat := (Act.all.map (cfg.actSizes B T)).sum

/-- `malloc_and_point_parameters`: where the parameters start in their allocation. -/
def Config.params (cfg : Config) : Param → Nat := place cfg.paramSizes Param.all 0

/-- `malloc_and_point_activations`: where the activations start in their allocation. -/
def Config.acts (cfg : Config) (B T : Nat) : Act → Nat := place (cfg.actSizes B T) Act.all 0

/-! ## The checkpoint -/

/-- The model file: the header and the floats after it. -/
structure Checkpoint (F : Type) where
  /-- `model_header[0]`. -/
  magic : Int
  /-- `model_header[1]`. -/
  version : Int
  /-- `model_header[2]` to `model_header[6]`. -/
  config : Config
  /-- The parameters. -/
  floats : List F

/-- The fields of `GPT2` that the forward pass reads. -/
structure Model (F : Type) where
  /-- The hyperparameters. -/
  config : Config
  /-- `params_memory`. -/
  params : Memory F

/-- How the program exits before it generates a token. -/
inductive Exit where
  /-- `Error opening model file`. -/
  | openFailed
  /-- `Bad magic model file`. -/
  | badMagic
  /-- `Bad version in model file`. -/
  | badVersion
  /-- `Provide at least one token.` -/
  | noToken
  /-- `Tow many tokens.` -/
  | tooManyTokens
  /-- Undefined behaviour. -/
  | fault (f : Fault)
deriving DecidableEq

variable {F : Type}

/-- The memory of the parameters.  A file that is too short leaves some of them unset. -/
def readParams (n : Nat) (floats : List F) : Memory F := fun a =>
  if a < n then
    match floats[a]? with
    | some v => .value v
    | none => .uninit
  else .outside

/-- `gpt2_build_from_checkpoint`, for the file if there is one. -/
def buildFromCheckpoint : Option (Checkpoint F) → Except Exit (Model F)
  | none => .error .openFailed
  | some file =>
      if file.magic ≠ 20240326 then .error .badMagic
      else if file.version ≠ 1 then .error .badVersion
      else if ¬ ∀ factors ∈ file.config.paramProducts, Fits factors then .error (.fault .overflow)
      else .ok ⟨file.config, readParams file.config.numParameters file.floats⟩

/-! ## The forward pass -/

section Forward

variable [FloatOps F]

/-- The residual stream that layer `l` reads. -/
def Config.residual (cfg : Config) (B T l : Nat) : Nat :=
  if l = 0 then cfg.acts B T .encoded else cfg.acts B T .residual3 + (l - 1) * B * T * cfg.C

/-- The products in the pointers and the arguments of layer `l`. -/
def Config.layerProducts (cfg : Config) (B T l : Nat) : List (List Nat) :=
  let NH := cfg.NH
  let C := cfg.C
  [[l - 1, B, T, C], [l, C], [l, 3, C, C], [l, 3, C], [l, C, C], [l, 4, C, C], [l, 4, C],
    [l, C, 4, C], [l, B, T, C], [l, B, T], [l, B, T, 3, C], [l, B, NH, T, T], [l, B, T, 4, C],
    [3, C], [4, C], [B, T, C], [B, T, 4, C]]

/-- The body of the loop over the layers, up to the first residual. -/
def attentionPart (model : Model F) (B T l : Nat) : Program F Unit := do
  let NH := model.config.NH
  let C := model.config.C
  let params := model.config.params
  let acts := model.config.acts B T
  let residual := model.config.residual B T l
  layernormForward model.params (acts .ln1 + l * B * T * C) (acts .ln1Mean + l * B * T)
    (acts .ln1Rstd + l * B * T) residual (params .ln1w + l * C) (params .ln1b + l * C) B T C
  matmulForward model.params (acts .qkv + l * B * T * 3 * C) (acts .ln1 + l * B * T * C)
    (params .qkvw + l * 3 * C * C) (some (params .qkvb + l * 3 * C)) B T C (3 * C)
  attentionForward (acts .atty + l * B * T * C) (acts .preatt + l * B * NH * T * T)
    (acts .att + l * B * NH * T * T) (acts .qkv + l * B * T * 3 * C) B T C NH
  matmulForward model.params (acts .attproj + l * B * T * C) (acts .atty + l * B * T * C)
    (params .attprojw + l * C * C) (some (params .attprojb + l * C)) B T C C
  residualForward (acts .residual2 + l * B * T * C) residual (acts .attproj + l * B * T * C)
    (B * T * C)

/-- The body of the loop over the layers, after the first residual. -/
def feedForwardPart (model : Model F) (B T l : Nat) : Program F Unit := do
  let C := model.config.C
  let params := model.config.params
  let acts := model.config.acts B T
  layernormForward model.params (acts .ln2 + l * B * T * C) (acts .ln2Mean + l * B * T)
    (acts .ln2Rstd + l * B * T) (acts .residual2 + l * B * T * C) (params .ln2w + l * C)
    (params .ln2b + l * C) B T C
  matmulForward model.params (acts .fch + l * B * T * 4 * C) (acts .ln2 + l * B * T * C)
    (params .fcw + l * 4 * C * C) (some (params .fcb + l * 4 * C)) B T C (4 * C)
  geluForward (acts .fchGelu + l * B * T * 4 * C) (acts .fch + l * B * T * 4 * C) (B * T * 4 * C)
  matmulForward model.params (acts .fcproj + l * B * T * C) (acts .fchGelu + l * B * T * 4 * C)
    (params .fcprojw + l * C * 4 * C) (some (params .fcprojb + l * C)) B T (4 * C) C
  residualForward (acts .residual3 + l * B * T * C) (acts .residual2 + l * B * T * C)
    (acts .fcproj + l * B * T * C) (B * T * C)

/-- The body of the loop over the layers. -/
def layerForward (model : Model F) (B T l : Nat) : Program F Unit := do
  ints (model.config.layerProducts B T l)
  attentionPart model B T l
  feedForwardPart model B T l

/-- The calls of the layers in `gpt2_forward`. -/
def forwardPass (model : Model F) (inputs : Memory Int) (B T : Nat) : Program F Unit := do
  let V := model.config.V
  let L := model.config.L
  let C := model.config.C
  let params := model.config.params
  let acts := model.config.acts B T
  encoderForward model.params (acts .encoded) inputs (params .wte) (params .wpe) B T C
  each L fun l => layerForward model B T l
  -- `acts.residual3 + (L-1) * B * T * C`; the product is negative without layers
  ints [[((L : Int) - 1).natAbs, B, T, C]]
  let residual := acts .residual3 + L * B * T * C - B * T * C
  layernormForward model.params (acts .lnf) (acts .lnfMean) (acts .lnfRstd) residual
    (params .lnfw) (params .lnfb) B T C
  matmulForward model.params (acts .logits) (acts .lnf) (params .wte) none B T C V
  softmaxForward (acts .probs) (acts .logits) B T V

/-- `gpt2_forward`: the memory of the activations. -/
def gpt2Forward (model : Model F) (inputs : Memory Int) (B T : Nat) : Except Fault (Memory F) :=
  if ∀ factors ∈ model.config.actProducts B T, Fits factors then
    (forwardPass model inputs B T (fresh (model.config.numActivations B T))).map Prod.snd
  else .error .overflow

/-! ## Generation -/

/-- The loop of `sample_mult` from index `i` on, with `rounds` left.  The coin is `0.5f`. -/
def sampleLoop (probabilities : Nat → Except Fault F) (n : Nat) : Nat → Nat → F → Except Fault Int
  | 0, _, _ => .ok (n - 1)
  | rounds + 1, i, cdf => do
      let p ← probabilities i
      let cdf := cdf + p
      if lt half cdf then .ok i else sampleLoop probabilities n rounds (i + 1) cdf

/-- `sample_mult`. -/
def sampleMult (probabilities : Nat → Except Fault F) (n : Nat) : Except Fault Int :=
  sampleLoop probabilities n n 0 zero

/-- `GPT2_EOT`. -/
def eot : Int := 50256

/-- The token limit of `main`. -/
def tokenLimit : Nat := 10

/-- The array `tokens` of `main`. -/
def tokenArray (tokens : Nat → Int) : Memory Int := fun i =>
  if i < tokenLimit then .value (tokens i) else .outside

/-- The token after the first `t`. -/
def nextToken (model : Model F) (tokens : Nat → Int) (t : Nat) : Except Fault Int := do
  let memory ← gpt2Forward model (tokenArray tokens) 1 t
  if ¬ Fits [t - 1, model.config.V] then throw .overflow
  sampleMult (fun i => memory.get (model.config.acts 1 t .probs + (t - 1) * model.config.V + i))
    model.config.V

/-- The loop of `main` from `t` on, with the tokens that it prints.  The first argument is
the number of rounds that are left. -/
def generate (model : Model F) : Nat → Nat → (Nat → Int) → Except Fault (List Int)
  | 0, _, _ => .ok []
  | rounds + 1, t, tokens => do
      let next ← nextToken model tokens t
      let rest ← generate model rounds (t + 1) (Function.update tokens t next)
      .ok (next :: rest)

/-- The tokens that `main` starts with, for its arguments after the program name. -/
def startTokens (args : List (List Char)) (i : Nat) : Int :=
  match args[i]? with
  | some arg => CString.atoi arg
  | none => eot

/-- `main`: the tokens that are printed. -/
def main (file : Option (Checkpoint F)) (args : List (List Char)) : Except Exit (List Int) := do
  let model ← buildFromCheckpoint file
  if args.length = 0 then .error .noToken
  else if args.length + 1 > tokenLimit then .error .tooManyTokens
  else
    (generate model (tokenLimit - args.length) args.length (startTokens args)).mapError Exit.fault

end Forward

end OsCourse.Gpt
