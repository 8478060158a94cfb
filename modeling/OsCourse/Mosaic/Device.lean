import OsCourse.Lib.Dict

/-!
# The block device

The device is a store of keys and values with a volatile buffer.  Writes go to
the buffer, `sys_sync` moves the buffer to the persistent part, and `sys_crash`
moves any part of it and loses the rest.

A system call does not act at once.  Its handler returns the choices of the
moment, each with an action.  An action here is a function on the store: the
handlers of `sys_bread` and `sys_crash` capture the store at the time of the
call, the other two act on the store at the time of the choice.

The invariant behind all laws relates the store to the calls that made it
(`run_since`): since the last sync or crash the persistent part has not changed,
and the buffer holds the last value written to every key.
-/

namespace OsCourse.Mosaic

/-- What the system needs to know of Python values. -/
class PyValue (V : Type) where
  /-- `None`. -/
  none : V
  /-- An integer. -/
  int : Int → V
  /-- `str(v)`. -/
  str : V → String

/-- The label of a choice. -/
inductive Label where
  /-- A text. -/
  | str (s : String)
  /-- A number. -/
  | int (n : Nat)
deriving DecidableEq

variable {V : Type} [DecidableEq V]

/-- The state of the device. -/
structure Storage (V : Type) where
  /-- What survives a crash. -/
  persist : Dict V V
  /-- The writes that are not yet persistent. -/
  buf : Dict V V

/-- The device before the first write. -/
def Storage.empty : Storage V := ⟨Dict.empty, Dict.empty⟩

/-- An action of a block device call: the result and the store after it. -/
abbrev BlockAction (V : Type) := Storage V → V × Storage V

/-- A dictionary with one choice. -/
def oneChoice {α : Type} (label : String) (act : α) : Dict Label α :=
  Dict.ofList [(.str label, act)]

variable [PyValue V]

/-! ## The handlers -/

/-- The value of a key: the buffer comes first. -/
def Storage.read (s : Storage V) (key : V) : V :=
  (s.buf.get? key).getD ((s.persist.get? key).getD PyValue.none)

/-- `sys_bread`. -/
def sysBread (s : Storage V) (key : V) : Dict Label (BlockAction V) :=
  oneChoice "bread" fun now => (s.read key, now)

/-- `sys_bwrite`. -/
def sysBwrite (key value : V) : Dict Label (BlockAction V) :=
  oneChoice "bwrite" fun now => (PyValue.none, { now with buf := now.buf.set key value })

/-- `sys_sync`. -/
def sysSync : Dict Label (BlockAction V) :=
  oneChoice "sync" fun now => (PyValue.none, ⟨now.persist.union now.buf, Dict.empty⟩)

/-- `product(*([(0, 1)] * n))`. -/
def subsets : Nat → List (List Bool)
  | 0 => [[]]
  | n + 1 => [false, true].flatMap fun b => (subsets n).map (b :: ·)

/-- `compress(l, selectors)`. -/
def compress {α : Type} : List α → List Bool → List α
  | a :: l, b :: bs => if b then a :: compress l bs else compress l bs
  | _, _ => []

/-- The store after a crash that persists the selected writes. -/
def Storage.crashed (s : Storage V) (subset : List Bool) : Storage V :=
  ⟨s.persist.union (Dict.ofList (compress s.buf.entries subset)), Dict.empty⟩

/-- `sys_crash`. -/
def sysCrash (s : Storage V) : Dict Label (BlockAction V) :=
  Dict.ofList ((subsets s.buf.entries.length).zipIdx.map fun x =>
    (.int x.2, fun _ => (PyValue.none, s.crashed x.1)))

/-! ## Runs of the device -/

/-- A call to the device. -/
inductive Call (V : Type) where
  /-- `sys_bread(key)`. -/
  | bread (key : V)
  /-- `sys_bwrite(key, value)`. -/
  | bwrite (key value : V)
  /-- `sys_sync()`. -/
  | sync
  /-- `sys_crash()`. -/
  | crash
deriving DecidableEq

/-- The choices of a call. -/
def handle (s : Storage V) : Call V → Dict Label (BlockAction V)
  | .bread key => sysBread s key
  | .bwrite key value => sysBwrite key value
  | .sync => sysSync
  | .crash => sysCrash s

/-- A call with the choice made for it: the result and the store after it.  There
is none for a choice that is not offered. -/
def perform (s : Storage V) (x : Call V × Label) : Option (V × Storage V) :=
  ((handle s x.1).get? x.2).map fun act => act s

/-- The store after a sequence of calls. -/
def runCalls : List (Call V × Label) → Storage V → Option (Storage V)
  | [], s => some s
  | x :: xs, s => (perform s x).bind fun r => runCalls xs r.2

/-- The last value that a sequence of calls writes to a key. -/
def lastWrite (key : V) : List (Call V × Label) → Option V
  | [] => none
  | (.bwrite k v, _) :: xs => (lastWrite key xs).or (if k = key then some v else none)
  | _ :: xs => lastWrite key xs

/-- Syncs and crashes empty the buffer. -/
def Call.isBarrier : Call V → Bool
  | .sync => true
  | .crash => true
  | _ => false

/-! ## One call -/

@[simp] theorem get?_oneChoice {α : Type} {label : String} {act act' : α} {c : Label} :
    (oneChoice label act).get? c = some act' ↔ c = .str label ∧ act' = act := by
  have hkeys : ([((.str label : Label), act)].map Prod.fst).Nodup := List.nodup_singleton _
  rw [oneChoice, Dict.get?_ofList hkeys, Dict.getEntry, Dict.getEntry]
  split
  next h => exact ⟨fun he => ⟨h.symm, (Option.some.inj he).symm⟩, fun he => by rw [he.2]⟩
  next h => exact ⟨fun he => (Option.some_ne_none _ he.symm).elim, fun he => absurd he.1.symm h⟩

theorem mem_subsets {n : Nat} {bs : List Bool} (h : bs.length = n) : bs ∈ subsets n := by
  induction n generalizing bs with
  | zero => rw [List.eq_nil_of_length_eq_zero h]; exact List.mem_singleton_self _
  | succ n ih =>
      cases bs with
      | nil => cases h
      | cons b bs =>
          simp only [subsets, List.mem_flatMap, List.mem_map]
          exact ⟨b, by cases b <;> decide, bs, ih (Nat.succ.inj h), rfl⟩

theorem compress_sublist {α : Type} : ∀ (l : List α) (bs : List Bool), (compress l bs).Sublist l
  | [], _ => by simp [compress]
  | a :: l, [] => by simp [compress]
  | a :: l, b :: bs => by
      rw [compress]
      split
      · exact (compress_sublist l bs).cons_cons a
      · exact (compress_sublist l bs).cons a

theorem compress_map {α : Type} (p : α → Bool) : ∀ l : List α, compress l (l.map p) = l.filter p
  | [] => rfl
  | a :: l => by
      rw [List.map_cons, compress, List.filter_cons, compress_map p l]

variable {s s' : Storage V} {c : Label} {r : V × Storage V}

/-- The choices of a crash are numbers, one for each subset. -/
theorem get?_sysCrash {act : BlockAction V} :
    (sysCrash s).get? c = some act ↔
      ∃ i bs, c = .int i ∧ (subsets s.buf.entries.length)[i]? = some bs ∧
        act = fun _ => (PyValue.none, s.crashed bs) := by
  have hkeys : (((subsets s.buf.entries.length).zipIdx.map fun x =>
      ((.int x.2, fun _ => (PyValue.none, s.crashed x.1)) : Label × BlockAction V)).map
        Prod.fst).Nodup := by
    rw [List.map_map]
    have hcomp : (Prod.fst ∘ fun x : List Bool × Nat =>
        ((.int x.2, fun _ => (PyValue.none, s.crashed x.1)) : Label × BlockAction V)) =
          Label.int ∘ Prod.snd := rfl
    rw [hcomp, ← List.map_map, List.zipIdx_map_snd]
    exact (List.nodup_range').map fun a b h => Label.int.inj h
  rw [sysCrash, Dict.get?_ofList hkeys, Dict.getEntry_eq_some_iff hkeys, List.mem_map]
  constructor
  · rintro ⟨x, hx, he⟩
    rw [Prod.mk.injEq] at he
    exact ⟨x.2, x.1, he.1.symm, List.mem_zipIdx_iff_getElem?.mp hx, he.2.symm⟩
  · rintro ⟨i, bs, rfl, hi, rfl⟩
    exact ⟨(bs, i), List.mem_zipIdx_iff_getElem?.mpr hi, rfl⟩

/-- A call with one choice has one outcome. -/
theorem perform_of_oneChoice {call : Call V} {label : String} {act : BlockAction V}
    (h : handle s call = oneChoice label act) :
    perform s (call, c) = some r ↔ c = .str label ∧ r = act s := by
  simp only [perform, h, Option.map_eq_some_iff, get?_oneChoice]
  constructor
  · rintro ⟨act', ⟨hc, rfl⟩, rfl⟩
    exact ⟨hc, rfl⟩
  · rintro ⟨hc, rfl⟩
    exact ⟨act, ⟨hc, rfl⟩, rfl⟩

theorem perform_bread {key : V} :
    perform s (.bread key, c) = some r ↔ c = .str "bread" ∧ r = (s.read key, s) :=
  perform_of_oneChoice rfl

theorem perform_bwrite {key value : V} :
    perform s (.bwrite key value, c) = some r ↔
      c = .str "bwrite" ∧ r = (PyValue.none, { s with buf := s.buf.set key value }) := by
  have h : handle s (.bwrite key value) = sysBwrite key value := rfl
  exact perform_of_oneChoice h

theorem perform_sync :
    perform s (.sync, c) = some r ↔
      c = .str "sync" ∧ r = (PyValue.none, ⟨s.persist.union s.buf, Dict.empty⟩) := by
  have h : handle s .sync = sysSync := rfl
  exact perform_of_oneChoice h

theorem perform_crash :
    perform s (.crash, c) = some r ↔
      ∃ i bs, c = .int i ∧ (subsets s.buf.entries.length)[i]? = some bs ∧
        r = (PyValue.none, s.crashed bs) := by
  rw [perform, Option.map_eq_some_iff]
  simp only [handle, get?_sysCrash]
  constructor
  · rintro ⟨act, ⟨i, bs, hc, hi, rfl⟩, rfl⟩; exact ⟨i, bs, hc, hi, rfl⟩
  · rintro ⟨i, bs, hc, hi, rfl⟩; exact ⟨_, ⟨i, bs, hc, hi, rfl⟩, rfl⟩

/-! ## Values -/

/-- The value of a key, if it has one. -/
def Storage.value? (s : Storage V) (key : V) : Option V := (s.buf.get? key).or (s.persist.get? key)

theorem Storage.read_eq (s : Storage V) (key : V) :
    s.read key = (s.value? key).getD PyValue.none := by
  rw [Storage.read, Storage.value?]
  cases s.buf.get? key <;> rfl

section Crash

omit [PyValue V]

theorem value?_sync (s : Storage V) (key : V) :
    (⟨s.persist.union s.buf, Dict.empty⟩ : Storage V).value? key = s.value? key :=
  Dict.get?_union s.persist s.buf key

theorem value?_bwrite (s : Storage V) (k v key : V) :
    ({ s with buf := s.buf.set k v } : Storage V).value? key =
      (if k = key then some v else none).or (s.value? key) := by
  rw [Storage.value?, Dict.get?_set]
  split <;> rfl

/-- A crash persists the buffered writes to some of the keys. -/
def Storage.overlay (s : Storage V) (keys : List V) (key : V) : Option V :=
  if key ∈ keys then s.buf.get? key else s.persist.get? key

omit [DecidableEq V] in
theorem nodup_compress {s : Storage V} (bs : List Bool) :
    ((compress s.buf.entries bs).map Prod.fst).Nodup :=
  ((compress_sublist s.buf.entries bs).map Prod.fst).nodup s.buf.nodup

theorem get?_crashed (s : Storage V) (bs : List Bool) (key : V) :
    (s.crashed bs).persist.get? key =
      (Dict.getEntry key (compress s.buf.entries bs)).or (s.persist.get? key) := by
  rw [Storage.crashed, Dict.get?_union, Dict.get?_ofList (nodup_compress bs)]

theorem crashed_overlay (s : Storage V) (bs : List Bool) :
    (s.crashed bs).persist.get? = s.overlay ((compress s.buf.entries bs).map Prod.fst) := by
  funext key
  rw [get?_crashed, Storage.overlay]
  split
  next h =>
    obtain ⟨⟨k, v⟩, hx, rfl⟩ := List.mem_map.mp h
    have hsel := (Dict.getEntry_eq_some_iff (nodup_compress bs)).mpr hx
    have hbuf : s.buf.get? k = some v :=
      Dict.get?_eq_some_iff.mpr ((compress_sublist _ _).subset hx)
    rw [hsel, hbuf]
    rfl
  next h => rw [Dict.getEntry_eq_none_iff.mpr h, Option.none_or]

/-- Every set of buffered keys is the set that some choice persists. -/
theorem crashed_of_keys {s : Storage V} {keys : List V} (h : keys ⊆ s.buf.keys) :
    (s.crashed (s.buf.entries.map fun x => x.1 ∈ keys)).persist.get? = s.overlay keys := by
  rw [crashed_overlay]
  funext key
  rw [Storage.overlay, Storage.overlay, compress_map]
  have hmem : key ∈ (s.buf.entries.filter fun x => x.1 ∈ keys).map Prod.fst ↔ key ∈ keys := by
    simp only [List.mem_map, List.mem_filter, decide_eq_true_eq]
    constructor
    · rintro ⟨x, ⟨-, hx⟩, rfl⟩; exact hx
    · intro hk
      obtain ⟨x, hx, rfl⟩ := List.mem_map.mp (h hk)
      exact ⟨x, ⟨hx, hk⟩, rfl⟩
  simp only [hmem]

end Crash

/-! ## Runs -/

theorem runCalls_append (xs ys : List (Call V × Label)) (s : Storage V) :
    runCalls (xs ++ ys) s = (runCalls xs s).bind (runCalls ys) := by
  induction xs generalizing s with
  | nil => rfl
  | cons x xs ih =>
      rw [List.cons_append, runCalls, runCalls, Option.bind_assoc]
      exact congrArg _ (funext fun r => ih r.2)

theorem runCalls_cons_some {x : Call V × Label} {xs : List (Call V × Label)}
    (h : runCalls (x :: xs) s = some s') :
    ∃ r, perform s x = some r ∧ runCalls xs r.2 = some s' := Option.bind_eq_some_iff.mp h

/-- Since the last sync or crash: the persistent part is unchanged and the
buffer holds the last write to every key. -/
theorem run_since {since : List (Call V × Label)} (hno : ∀ x ∈ since, x.1.isBarrier = false)
    (h : runCalls since s = some s') :
    s'.persist = s.persist ∧
      ∀ key, s'.buf.get? key = (lastWrite key since).or (s.buf.get? key) := by
  induction since generalizing s with
  | nil => cases h; exact ⟨rfl, fun _ => rfl⟩
  | cons x since ih =>
      obtain ⟨r, hr, hrest⟩ := runCalls_cons_some h
      obtain ⟨hpers, hbuf⟩ := ih (fun y hy => hno y (List.mem_cons_of_mem _ hy)) hrest
      have hx := hno x (List.mem_cons_self ..)
      obtain ⟨call, c⟩ := x
      cases call with
      | bread key =>
          obtain ⟨-, rfl⟩ := perform_bread.mp hr
          exact ⟨hpers, hbuf⟩
      | bwrite k v =>
          obtain ⟨-, rfl⟩ := perform_bwrite.mp hr
          refine ⟨hpers, fun key => ?_⟩
          rw [hbuf, Dict.get?_set, lastWrite, Option.or_assoc]
          split <;> rfl
      | sync => cases hx
      | crash => cases hx

/-- Without a crash the value of a key is the last one written to it. -/
theorem run_noCrash {calls : List (Call V × Label)} (hno : ∀ x ∈ calls, x.1 ≠ .crash)
    (h : runCalls calls s = some s') (key : V) :
    s'.value? key = (lastWrite key calls).or (s.value? key) := by
  induction calls generalizing s with
  | nil => cases h; rfl
  | cons x calls ih =>
      obtain ⟨r, hr, hrest⟩ := runCalls_cons_some h
      have hval := ih (fun y hy => hno y (List.mem_cons_of_mem _ hy)) hrest
      have hx := hno x (List.mem_cons_self ..)
      obtain ⟨call, c⟩ := x
      cases call with
      | bread key =>
          obtain ⟨-, rfl⟩ := perform_bread.mp hr
          exact hval
      | bwrite k v =>
          obtain ⟨-, rfl⟩ := perform_bwrite.mp hr
          rw [hval, value?_bwrite, lastWrite, Option.or_assoc]
      | sync =>
          obtain ⟨-, rfl⟩ := perform_sync.mp hr
          rw [hval, value?_sync]
          rfl
      | crash => exact absurd rfl hx

/-- The calls are none, or the last of them is a sync or a crash. -/
def EndsInBarrier (calls : List (Call V × Label)) : Prop :=
  ∀ x, calls.getLast? = some x → x.1.isBarrier = true

theorem buf_of_barrier {calls : List (Call V × Label)} (hend : EndsInBarrier calls)
    (h : runCalls calls Storage.empty = some s) :
    s.buf = Dict.empty := by
  induction calls using List.reverseRecOn with
  | nil => cases h; rfl
  | append_singleton calls x _ =>
      have hx : x.1.isBarrier = true := hend x (by simp)
      rw [runCalls_append] at h
      obtain ⟨s1, -, h1⟩ := Option.bind_eq_some_iff.mp h
      obtain ⟨r, hr, hs⟩ := runCalls_cons_some h1
      cases hs
      obtain ⟨call, c⟩ := x
      cases call with
      | bread key => cases hx
      | bwrite k v => cases hx
      | sync =>
          obtain ⟨-, rfl⟩ := perform_sync.mp hr
          rfl
      | crash =>
          obtain ⟨i, bs, -, -, rfl⟩ := perform_crash.mp hr
          rfl

/-- After a crash a key has the value of the last sync or crash or the last value
written to it since then. -/
theorem value?_after_crash {before since : List (Call V × Label)} {s0 : Storage V}
    (hend : EndsInBarrier before) (hno : ∀ x ∈ since, x.1.isBarrier = false)
    (h0 : runCalls before Storage.empty = some s0) (h : runCalls since s0 = some s) (bs : List Bool)
    (key : V) :
    (s.crashed bs).value? key = s0.value? key ∨
      ∃ v, lastWrite key since = some v ∧ (s.crashed bs).value? key = some v := by
  have hempty := buf_of_barrier hend h0
  obtain ⟨hpers, hbuf⟩ := run_since hno h
  have h0val : s0.value? key = s0.persist.get? key := by
    rw [Storage.value?, hempty]
    rfl
  have hcrash : (s.crashed bs).value? key = (s.crashed bs).persist.get? key := rfl
  rw [hcrash, h0val, crashed_overlay, Storage.overlay, hpers, hbuf, hempty]
  split
  next hsel =>
    -- a selected key is buffered, so it has been written
    obtain ⟨x, hx, rfl⟩ := List.mem_map.mp hsel
    have hget : s.buf.get? x.1 = some x.2 :=
      Dict.get?_eq_some_iff.mpr ((compress_sublist _ _).subset hx)
    rw [hbuf, hempty, Dict.get?_empty, Option.or_none] at hget
    rw [Dict.get?_empty, Option.or_none]
    exact Or.inr ⟨x.2, hget, hget⟩
  next => exact Or.inl rfl

/-! ## The laws -/

/-- The laws of the device, for the store `s` that a sequence of calls made. -/
structure DeviceLaws (calls : List (Call V × Label)) (s : Storage V) : Prop where
  /-- `sys_bread` has one choice, in every store: it returns the value that the key reads as
  and changes nothing. -/
  bread_returns : ∀ (now : Storage V) key c r,
    perform now (.bread key, c) = some r ↔ c = .str "bread" ∧ r = (now.read key, now)
  /-- Without a crash a key reads as the last value written, or as none. -/
  read_noCrash : (∀ x ∈ calls, x.1 ≠ .crash) → ∀ key,
    s.read key = (lastWrite key calls).getD PyValue.none
  /-- A value is read back until a crash or another write to its key. -/
  read_written : ∀ before key v c after, calls = before ++ (.bwrite key v, c) :: after →
    (∀ x ∈ after, x.1 ≠ .crash) → lastWrite key after = none → s.read key = v
  /-- A sync changes no read. -/
  read_sync : ∀ c r, perform s (.sync, c) = some r → ∀ key, r.2.read key = s.read key
  /-- What a crash leaves of the calls since the last sync or crash. -/
  read_crash : ∀ before since, calls = before ++ since → EndsInBarrier before →
    (∀ x ∈ since, x.1.isBarrier = false) →
      ∃ s0, runCalls before Storage.empty = some s0 ∧ ∀ key,
        (lastWrite key since = none → s.read key = s0.read key) ∧
        ∀ c r, perform s (.crash, c) = some r →
          (r.2.read key = s0.read key ∨ lastWrite key since = some (r.2.read key)) ∧
          (lastWrite key since = none → r.2.read key = s0.read key)
  /-- The stores after a crash are those that persist some of the buffered keys. -/
  crash_choices : ∀ store : V → Option V,
    (∃ c r, perform s (.crash, c) = some r ∧ r.2.buf = Dict.empty ∧ r.2.persist.get? = store) ↔
      ∃ keys, keys ⊆ s.buf.keys ∧ store = s.overlay keys

/-- The laws hold after every sequence of calls with any choices. -/
theorem device_laws {calls : List (Call V × Label)} {s : Storage V}
    (h : runCalls calls Storage.empty = some s) : DeviceLaws calls s where
  bread_returns _ _ _ _ := perform_bread
  read_noCrash hno key := by
    rw [Storage.read_eq, run_noCrash hno h]
    exact congrArg (Option.getD · _) (Option.or_none ..)
  read_written before key v c after hcalls hno hlast := by
    subst hcalls
    rw [runCalls_append] at h
    obtain ⟨s1, -, h1⟩ := Option.bind_eq_some_iff.mp h
    obtain ⟨r, hr, hafter⟩ := runCalls_cons_some h1
    obtain ⟨-, rfl⟩ := perform_bwrite.mp hr
    rw [Storage.read_eq, run_noCrash hno hafter, hlast, value?_bwrite, if_pos rfl]
    rfl
  read_sync c r hr key := by
    obtain ⟨-, rfl⟩ := perform_sync.mp hr
    rw [Storage.read_eq, Storage.read_eq, value?_sync]
  read_crash before since hcalls hend hno := by
    subst hcalls
    rw [runCalls_append] at h
    obtain ⟨s0, h0, hs⟩ := Option.bind_eq_some_iff.mp h
    refine ⟨s0, h0, fun key => ⟨fun hlast => ?_, fun c r hr => ?_⟩⟩
    · have hnoCrash : ∀ x ∈ since, x.1 ≠ .crash := by
        intro x hx he
        have := hno x hx
        rw [he] at this
        cases this
      rw [Storage.read_eq, Storage.read_eq, run_noCrash hnoCrash hs, hlast, Option.none_or]
    · obtain ⟨i, bs, -, -, rfl⟩ := perform_crash.mp hr
      rw [Storage.read_eq, Storage.read_eq]
      rcases value?_after_crash hend hno h0 hs bs key with hsame | ⟨v, hlast, hnew⟩
      · exact ⟨Or.inl (by rw [hsame]), fun _ => by rw [hsame]⟩
      · refine ⟨Or.inr (by rw [hnew, hlast]; rfl), fun hnone => ?_⟩
        rw [hnone] at hlast
        cases hlast
  crash_choices store := by
    constructor
    · rintro ⟨c, r, hr, -, rfl⟩
      obtain ⟨i, bs, -, -, rfl⟩ := perform_crash.mp hr
      refine ⟨_, ?_, crashed_overlay s bs⟩
      exact ((compress_sublist s.buf.entries bs).map Prod.fst).subset
    · rintro ⟨keys, hkeys, rfl⟩
      have hmem : (s.buf.entries.map fun x => decide (x.1 ∈ keys)) ∈
          subsets s.buf.entries.length := mem_subsets (by simp)
      obtain ⟨i, hi⟩ := List.getElem?_of_mem hmem
      exact ⟨.int i, _, perform_crash.mpr ⟨i, _, rfl, hi, rfl⟩, rfl, crashed_of_keys hkeys⟩

/-- Values for examples: `None` and integers. -/
instance : PyValue (Option Int) where
  none := none
  int := some
  str v := (v.map toString).getD "None"

/-- Two writes that are buffered at a crash, one of them over a persistent value. -/
def twoWrites : List (Call (Option Int) × Label) :=
  [(.bwrite (some 1) (some 5), .str "bwrite"), (.sync, .str "sync"),
    (.bwrite (some 1) (some 6), .str "bwrite"), (.bwrite (some 2) (some 7), .str "bwrite"),
    (.crash, .int 1)]

/-- The crash persists the write to key 2 and loses the one to key 1. -/
theorem device_laws_twoWrites :
    ∃ s, runCalls twoWrites Storage.empty = some s ∧ DeviceLaws twoWrites s ∧
      perform s (.bread (some 1), .str "bread") = some (some 5, s) ∧
      perform s (.bread (some 2), .str "bread") = some (some 7, s) :=
  ⟨_, rfl, device_laws rfl, rfl, rfl⟩

end OsCourse.Mosaic
