import OsCourse.Gpt.Refine

/-!
# Generation

`main` generates one token at a time, with a forward pass over the tokens so far.  The
network is causal, so all of these passes agree with one pass over the finished
sequence: each token that `main` prints is the one that is sampled from the
probabilities at the position before it (`main_autoregressive`).

The sampled token is the median: the first one at which the cumulated probabilities
exceed one half.
-/

namespace OsCourse.Gpt

open OsCourse.Cells FloatOps

variable {F : Type} [FloatOps F]

/-! ## Forward passes -/

/-- The tokens of a batch in memory. -/
def HoldsTokens (V : Nat) (inputs : Memory Int) (B T : Nat) (tokens : Nat → Nat → Nat) : Prop :=
  ∀ b < B, ∀ t < T, inputs (b * T + t) = .value ↑(tokens b t) ∧ tokens b t < V

section Passes

variable {model : Model F} {v : Nat → F} {B T : Nat} {inputs : Memory Int}
  {tokens : Nat → Nat → Nat}

omit [FloatOps F] in
/-- A file that is long enough sets all parameters. -/
theorem loaded_readParams {cfg : Config} {floats : List F}
    (h : cfg.numParameters ≤ floats.length) (d : F) :
    (⟨cfg, readParams cfg.numParameters floats⟩ : Model F).Loaded fun a => floats.getD a d := by
  intro a ha
  have hlt : a < floats.length := lt_of_lt_of_le ha h
  dsimp only at ha ⊢
  rw [Nat.zero_add a, readParams, if_pos ha, List.getD_eq_getElem?_getD,
    List.getElem?_eq_getElem hlt]
  rfl

omit [FloatOps F] in
theorem ready_fresh : model.Ready B T (fresh (model.config.numActivations B T)) := by
  intro a ha
  rw [mem_array] at ha
  rw [fresh, if_pos (by omega)]
  intro h
  cases h

theorem exists_gpt2Forward (hload : model.Loaded v) (hvalid : model.config.Valid)
    (hfits : model.config.Fits B T) (hT : T ≤ model.config.maxT)
    (htokens : HoldsTokens model.config.V inputs B T tokens) :
    ∃ m, gpt2Forward model inputs B T = .ok m ∧
      Holds₃ (model.config.acts B T .probs) B T model.config.V
        (fun b => (model.config.network v).probabilities (tokens b)) m := by
  obtain ⟨_, m, hrun, hprobs⟩ := wp_forwardPass hload hvalid hfits hT
    (fun b hb t ht => (htokens b hb t ht).1) (fun b hb t ht => (htokens b hb t ht).2) ready_fresh
  refine ⟨m, ?_, hprobs⟩
  rw [gpt2Forward, if_pos hfits.acts, hrun]
  rfl

/-- The forward pass of every batch whose tensors have sizes that are `int`s ends without a
fault, and its probabilities are those of the network. -/
theorem gpt2Forward_refines (hload : model.Loaded v) (hvalid : model.config.Valid)
    (hfits : model.config.Fits B T) (hT : T ≤ model.config.maxT)
    (htokens : HoldsTokens model.config.V inputs B T tokens) :
    ∃ m, gpt2Forward model inputs B T = .ok m ∧ ∀ b < B, ∀ t < T, ∀ i < model.config.V,
      m (model.config.acts B T .probs + (b * T * model.config.V + t * model.config.V) + i) =
        .value ((model.config.network v).probabilities (tokens b) t i) :=
  exists_gpt2Forward hload hvalid hfits hT htokens

/-- A checkpoint with one layer, one head and one channel. -/
def tinyCheckpoint : Checkpoint Float32 where
  magic := 20240326
  version := 1
  config := ⟨9, 2, 1, 1, 1⟩
  floats := List.replicate 38 1.0

/-- The model of `tinyCheckpoint`. -/
def tinyModel : Model Float32 :=
  ⟨tinyCheckpoint.config, readParams tinyCheckpoint.config.numParameters tinyCheckpoint.floats⟩

theorem loaded_tinyModel : tinyModel.Loaded fun a => tinyCheckpoint.floats.getD a zero :=
  loaded_readParams (List.length_replicate ▸ le_rfl) zero

theorem valid_tinyConfig : tinyCheckpoint.config.Valid := ⟨Nat.one_pos, dvd_rfl, Nat.one_pos⟩

theorem fits_tinyConfig : tinyCheckpoint.config.Fits 2 9 := ⟨by decide, by decide⟩

theorem holdsTokens_one {B T : Nat} :
    HoldsTokens tinyModel.config.V (fun _ => .value 1) B T fun _ _ => 1 :=
  fun _ _ _ _ => ⟨rfl, Nat.lt_succ_self 1⟩

theorem gpt2Forward_refines_tiny :
    ∃ m, gpt2Forward tinyModel (fun _ => .value 1) 2 3 = .ok m ∧ ∀ b < 2, ∀ t < 3, ∀ i < 2,
      m (tinyModel.config.acts 2 3 .probs + (b * 3 * 2 + t * 2) + i) =
        .value ((tinyModel.config.network fun a =>
          tinyCheckpoint.floats.getD a zero).probabilities (fun _ => 1) t i) :=
  gpt2Forward_refines loaded_tinyModel valid_tinyConfig (fits_tinyConfig.mono (by decide))
    (by decide) holdsTokens_one

/-- Two forward passes of different batches and lengths agree where the tokens up to a
position are the same. -/
theorem gpt2Forward_causal {B' T' : Nat} {inputs' : Memory Int} {tokens' : Nat → Nat → Nat}
    (hload : model.Loaded v) (hvalid : model.config.Valid)
    (hfits : model.config.Fits B T) (hT : T ≤ model.config.maxT)
    (htokens : HoldsTokens model.config.V inputs B T tokens)
    (hfits' : model.config.Fits B' T') (hT' : T' ≤ model.config.maxT)
    (htokens' : HoldsTokens model.config.V inputs' B' T' tokens')
    {b b' t : Nat} (hb : b < B) (hb' : b' < B') (ht : t < T) (ht' : t < T')
    (hsame : ∀ s ≤ t, tokens b s = tokens' b' s) :
    ∃ m m', gpt2Forward model inputs B T = .ok m ∧ gpt2Forward model inputs' B' T' = .ok m' ∧
      ∀ i < model.config.V,
        m (model.config.acts B T .probs + (b * T * model.config.V + t * model.config.V) + i) =
        m' (model.config.acts B' T' .probs +
          (b' * T' * model.config.V + t * model.config.V) + i) := by
  obtain ⟨m, hm, hprobs⟩ := exists_gpt2Forward hload hvalid hfits hT htokens
  obtain ⟨m', hm', hprobs'⟩ := exists_gpt2Forward hload hvalid hfits' hT' htokens'
  refine ⟨m, m', hm, hm', fun i hi => ?_⟩
  have hrow := probabilities_congr (model.config.network v) hsame
  rw [hprobs b hb t ht i hi, hprobs' b' hb' t ht' i hi]
  exact congrArg Cell.value (congrFun hrow i)

/-- The tokens 1 and 0. -/
def oneZero (i : Nat) : Nat := if i = 1 then 0 else 1

theorem holdsTokens_oneZero :
    HoldsTokens tinyModel.config.V (fun a => .value ↑(oneZero a)) 1 2 fun _ => oneZero := by
  intro b hb t ht
  obtain rfl : b = 0 := by omega
  rw [Nat.zero_mul, Nat.zero_add]
  exact ⟨rfl, by interval_cases t <;> decide⟩

/-- The second token differs, and the probabilities after the first one are the same. -/
theorem gpt2Forward_causal_tiny :
    ∃ m m', gpt2Forward tinyModel (fun a => .value ↑(oneZero a)) 1 2 = .ok m ∧
      gpt2Forward tinyModel (fun _ => .value 1) 2 3 = .ok m' ∧
      ∀ i < 2, m (tinyModel.config.acts 1 2 .probs + (0 * 2 * 2 + 0 * 2) + i) =
        m' (tinyModel.config.acts 2 3 .probs + (1 * 3 * 2 + 0 * 2) + i) :=
  gpt2Forward_causal loaded_tinyModel valid_tinyConfig ⟨by decide, by decide⟩ (by decide)
    holdsTokens_oneZero (fits_tinyConfig.mono (by decide)) (by decide) holdsTokens_one
    (by decide) (by decide) (by decide) (by decide) fun s hs => by rw [Nat.le_zero.mp hs]; rfl

end Passes

/-! ## Sampling -/

/-- The cumulated probabilities up to index `i`. -/
def cumulated (p : Nat → F) (i : Nat) : F := fold (i + 1) (fun j cdf => cdf + p j) zero

/-- The first index at which the cumulated probabilities exceed one half, or the last. -/
def median (n : Nat) (p : Nat → F) : Nat :=
  ((List.range n).find? fun i => lt half (cumulated p i)).getD (n - 1)

theorem median_lt {n : Nat} (hn : 0 < n) (p : Nat → F) : median n p < n := by
  rw [median]
  cases h : (List.range n).find? fun i => lt half (cumulated p i) with
  | none => exact Nat.sub_lt hn Nat.one_pos
  | some i => exact List.mem_range.mp (List.mem_of_find?_eq_some h)

theorem sampleLoop_eq {probabilities : Nat → Except Fault F} {p : Nat → F} {n : Nat}
    (hp : ∀ i < n, probabilities i = .ok (p i)) {rounds i : Nat} (hn : i + rounds = n) :
    sampleLoop probabilities n rounds i (fold i (fun j cdf => cdf + p j) zero) =
      .ok ((((List.range' i rounds).find? fun i => lt half (cumulated p i)).map Nat.cast).getD
        ((n : Int) - 1)) := by
  induction rounds generalizing i with
  | zero => rfl
  | succ rounds ih =>
      have hcdf : cumulated p i = fold i (fun j cdf => cdf + p j) zero + p i :=
        fold_succ i (fun j cdf => cdf + p j) zero
      rw [sampleLoop, hp i (by omega), List.range'_succ, List.find?_cons]
      change (if lt half (fold i (fun j cdf => cdf + p j) zero + p i) = true then _ else _) = _
      rw [← hcdf]
      by_cases hlt : lt half (cumulated p i) = true
      · rw [if_pos hlt, hlt]
        rfl
      · rw [if_neg hlt, Bool.not_eq_true _ |>.mp hlt]
        exact ih (by omega)

theorem sampleMult_eq {probabilities : Nat → Except Fault F} {p : Nat → F} {n : Nat} (hn : 0 < n)
    (hp : ∀ i < n, probabilities i = .ok (p i)) :
    sampleMult probabilities n = .ok (median n p : Int) := by
  have hloop := sampleLoop_eq hp (Nat.zero_add n)
  rw [fold_zero] at hloop
  rw [sampleMult, hloop, median, List.range_eq_range']
  cases (List.range' 0 n).find? fun i => lt half (cumulated p i) with
  | none =>
      rw [Option.map_none, Option.getD_none, Option.getD_none, Nat.cast_sub hn, Nat.cast_one]
  | some i => rfl

/-! ## The loop -/

section Loop

variable {model : Model F} {v : Nat → F}

/-- The next token is sampled at the last position. -/
theorem nextToken_eq (hload : model.Loaded v) (hvalid : model.config.Valid) {t : Nat}
    (hfits : model.config.Fits 1 t)
    {tokens : Nat → Int} {s : Nat → Nat} (hpos : 0 < t) (hlimit : t ≤ tokenLimit)
    (hT : t ≤ model.config.maxT) (htokens : ∀ i < t, tokens i = s i ∧ s i < model.config.V) :
    nextToken model tokens t =
      .ok (median model.config.V ((model.config.network v).probabilities s (t - 1)) : Int) := by
  have hin : HoldsTokens model.config.V (tokenArray tokens) 1 t fun _ => s := by
    intro b hb i hi
    have hzero : b = 0 := Nat.lt_one_iff.mp hb
    subst hzero
    rw [Nat.zero_mul, Nat.zero_add, tokenArray, if_pos (hi.trans_le hlimit), (htokens i hi).1]
    exact ⟨rfl, (htokens i hi).2⟩
  obtain ⟨m, hm, hprobs⟩ := exists_gpt2Forward hload hvalid hfits hT hin
  have hV : 0 < model.config.V := Nat.zero_lt_of_lt (htokens 0 hpos).2
  have hget : ∀ i < model.config.V,
      m.get (model.config.acts 1 t .probs + (t - 1) * model.config.V + i) =
        .ok ((model.config.network v).probabilities s (t - 1) i) := by
    intro i hi
    have hcell := hprobs 0 Nat.one_pos (t - 1) (Nat.sub_lt hpos Nat.one_pos) i hi
    rw [Nat.zero_mul, Nat.zero_mul, Nat.zero_add] at hcell
    have hvalue := get_of_value hcell
    rwa [Nat.cast_add, Nat.cast_add, Nat.cast_mul, Nat.cast_sub hpos, Nat.cast_one] at hvalue
  have hprobsFit : Fits [t - 1, model.config.V] :=
    ((hfits.act .probs).tail Nat.one_pos).mono
      (.cons (Nat.sub_le t 1) (List.forall₂_refl [model.config.V]))
  simp only [nextToken, hm, hprobsFit, not_true_eq_false, if_false]
  exact sampleMult_eq hV hget

/-- The tokens that a loop of `rounds` rounds generates after the first `t`. -/
theorem generate_eq (hload : model.Loaded v) (hvalid : model.config.Valid)
    (hfits : model.config.Fits 1 (tokenLimit - 1)) (rounds : Nat) {t : Nat} {tokens : Nat → Int}
    {s₀ : Nat → Nat} (hpos : 0 < t) (hlimit : t + rounds ≤ tokenLimit)
    (hT : t + rounds ≤ model.config.maxT + 1)
    (htokens : ∀ i < t, tokens i = s₀ i ∧ s₀ i < model.config.V) :
    ∃ s : Nat → Nat, (∀ i < t, s i = s₀ i) ∧
      generate model rounds t tokens = .ok ((List.range' t rounds).map fun i => (s i : Int)) ∧
      ∀ i, t ≤ i → i < t + rounds → s i < model.config.V ∧
        s i = median model.config.V ((model.config.network v).probabilities s (i - 1)) := by
  induction rounds generalizing t tokens s₀ with
  | zero => exact ⟨s₀, fun _ _ => rfl, rfl, fun i hi hi' => absurd hi' (Nat.not_lt.mpr hi)⟩
  | succ rounds ih =>
      let next := median model.config.V ((model.config.network v).probabilities s₀ (t - 1))
      have hnext : nextToken model tokens t = .ok (next : Int) :=
        nextToken_eq hload hvalid (hfits.mono (by omega)) hpos (by omega) (by omega) htokens
      have hV : next < model.config.V := median_lt (Nat.zero_lt_of_lt (htokens 0 hpos).2) _
      have hupdate : ∀ i < t + 1, Function.update tokens t (next : Int) i =
          Function.update s₀ t next i ∧ Function.update s₀ t next i < model.config.V := by
        intro i hi
        rcases eq_or_ne i t with rfl | hne
        · rw [Function.update_self, Function.update_self]
          exact ⟨rfl, hV⟩
        · rw [Function.update_of_ne hne, Function.update_of_ne hne]
          exact htokens i (by omega)
      obtain ⟨s, hfirst, hrun, hrest⟩ := ih (Nat.succ_pos t) (by omega) (by omega) hupdate
      have hsame : ∀ i < t, s i = s₀ i := fun i hi => by
        rw [hfirst i (by omega), Function.update_of_ne (by omega)]
      have hst : s t = next := by
        rw [hfirst t (Nat.lt_succ_self t), Function.update_self]
      refine ⟨s, hsame, ?_, fun i hi hi' => ?_⟩
      · rw [generate, hnext]
        change (generate model rounds (t + 1) (Function.update tokens t ↑next) >>= _) = _
        rw [hrun, List.range'_succ, List.map_cons, hst]
        rfl
      · rcases Nat.eq_or_lt_of_le hi with rfl | hlt
        · -- the tokens after position `t - 1` do not matter for the probabilities there
          refine ⟨hst ▸ hV, hst.trans ?_⟩
          exact congrArg (median model.config.V)
            (probabilities_congr _ fun i hi => (hsame i (by omega)).symm)
        · exact hrest i hlt (by omega)

end Loop

/-! ## The program -/

/-- A file that `gpt2_build_from_checkpoint` accepts, with all parameters. -/
structure Checkpoint.Valid (file : Checkpoint F) : Prop where
  magic : file.magic = 20240326
  version : file.version = 1
  floats : file.config.numParameters ≤ file.floats.length
  config : file.config.Valid

/-- The network of a checkpoint. -/
def Checkpoint.network (file : Checkpoint F) : Network F :=
  file.config.network fun a => file.floats.getD a zero

theorem Checkpoint.Valid.build {file : Checkpoint F} (h : file.Valid)
    (hfits : ∀ factors ∈ file.config.paramProducts, Fits factors) :
    ∃ model, buildFromCheckpoint (some file) = .ok model ∧ model.config = file.config ∧
      model.Loaded fun a => file.floats.getD a zero := by
  refine ⟨⟨file.config, readParams file.config.numParameters file.floats⟩, ?_, rfl,
    loaded_readParams h.floats zero⟩
  rw [buildFromCheckpoint, if_neg (not_not.mpr h.magic), if_neg (not_not.mpr h.version),
    if_neg (not_not.mpr hfits)]

/-- `main` prints the continuation of its arguments, up to ten tokens, if the sizes of the
tensors for nine positions are `int`s and the table has nine positions.  The sequence of all
tokens is the one that one forward pass over it samples again. -/
theorem main_autoregressive {file : Checkpoint F} (hfile : file.Valid)
    (hfits : file.config.Fits 1 (tokenLimit - 1)) (hT : tokenLimit ≤ file.config.maxT + 1)
    (args : List (List Char)) (hargs : args ≠ [])
    (hlength : args.length < tokenLimit) (prompt : Nat → Nat)
    (hprompt : ∀ i (h : i < args.length), CString.atoi (args.get ⟨i, h⟩) = prompt i ∧
      prompt i < file.config.V) :
    ∃ s : Nat → Nat, (∀ i < args.length, s i = prompt i) ∧
      main (some file) args =
        .ok ((List.range' args.length (tokenLimit - args.length)).map fun t => (s t : Int)) ∧
      ∀ t, args.length ≤ t → t < tokenLimit → s t < file.config.V ∧
        s t = median file.config.V (file.network.probabilities s (t - 1)) := by
  obtain ⟨model, hbuild, hconfig, hload⟩ := hfile.build hfits.params
  have hpos : 0 < args.length := List.length_pos_iff.mpr hargs
  have htokens : ∀ i < args.length,
      startTokens args i = prompt i ∧ prompt i < model.config.V := by
    intro i hi
    rw [startTokens, List.getElem?_eq_getElem hi, hconfig]
    exact hprompt i hi
  have hvalid : model.config.Valid := hconfig ▸ hfile.config
  have hmax : args.length + (tokenLimit - args.length) ≤ model.config.maxT + 1 := by
    rw [hconfig]
    omega
  obtain ⟨s, hfirst, hrun, hrest⟩ := generate_eq hload hvalid (hconfig ▸ hfits)
    (tokenLimit - args.length) hpos (by omega) hmax htokens
  refine ⟨s, hfirst, ?_, fun t ht ht' => ?_⟩
  · rw [main, hbuild]
    change (if args.length = 0 then _ else _) = _
    rw [if_neg hpos.ne', if_neg (by omega), hrun]
    rfl
  · have hlast := hrest t ht (by omega)
    rwa [hconfig] at hlast

theorem main_autoregressive_tiny :
    ∃ s : Nat → Nat, (∀ i < 2, s i = 1) ∧
      main (some tinyCheckpoint) [['1'], ['0', '1']] =
        .ok ((List.range' 2 8).map fun t => (s t : Int)) ∧
      ∀ t, 2 ≤ t → t < 10 → s t < 2 ∧
        s t = median 2 (tinyCheckpoint.network.probabilities s (t - 1)) :=
  main_autoregressive ⟨rfl, rfl, List.length_replicate ▸ le_rfl, valid_tinyConfig⟩
    ⟨by decide, by decide⟩ (by decide) [['1'], ['0', '1']] (by decide) (by decide) (fun _ => 1)
    (by decide)

end OsCourse.Gpt
