import OsCourse.Lib.Dict

/-!
# Sessions of the online server

`online.py` runs `handle_client` in a thread for each client.  The threads share
the dictionary `players` from usernames to player ids, and touch it in two blocks
under one lock: the assignment of an id at the start, and the `finally` clause at
the end.  Each of them is one step here, and the steps of all threads interleave
in any order.  Between the two a session keeps its id in a local variable.

A second session of a user shares the entry of the first one, and the first of
them to end deletes it.  `step_consistent` is what holds as long as that does not
happen: an active session has the id that `players` has for its user.
-/

namespace OsCourse.Online

/-- `get_available_player_ids`, for the text of the map. -/
def getAvailablePlayerIds (mapContent : String) : List Nat :=
  (List.range 10).filter fun digit => digit.digitChar ∈ mapContent.toList

/-- The part of `LabyrinthServer` that the two blocks use. -/
structure Server (U : Type) where
  availablePlayerIds : List Nat
  players : Dict U Nat

/-- Where the thread of a client is. -/
inductive Session (U : Type) where
  /-- Before the assignment. -/
  | connecting
  /-- In the game, with the local variables `username` and `player_id`. -/
  | active (username : U) (playerId : Nat)
  /-- The game was full, and the `finally` clause is still to come. -/
  | refused (username : U)
  | closed
  deriving DecidableEq

variable {U : Type} [DecidableEq U]

/-- The assignment of an id; `none` when the game is full. -/
def Server.assign (server : Server U) (username : U) : Option Nat × Server U :=
  match server.players.get? username with
  | some playerId => (some playerId, server)
  | none =>
      let availableIds := server.availablePlayerIds.filter (· ∉ server.players.values)
      match availableIds.min? with
      | none => (none, server)
      | some playerId =>
          (some playerId, { server with players := server.players.set username playerId })

/-- The `finally` clause. -/
def Server.disconnect (server : Server U) (username : U) : Server U :=
  if username ∈ server.players.keys then
    { server with players := server.players.erase username }
  else server

/-- The server and the threads of all clients. -/
structure State (U : Type) where
  server : Server U
  sessions : Nat → Session U

/-- The server as it starts, before any client has come. -/
def State.init (availablePlayerIds : List Nat) : State U :=
  ⟨⟨availablePlayerIds, .empty⟩, fun _ => .connecting⟩

/-- A step of one client. -/
inductive Event (U : Type) where
  /-- The channel is established, and the user asks for an id. -/
  | start (client : Nat) (username : U)
  /-- No channel is established.  The `finally` clause fails on `username`, which
  has no value yet, and does nothing. -/
  | abandon (client : Nat)
  /-- The thread is in its `finally` clause. -/
  | finish (client : Nat)

def State.setSession (s : State U) (client : Nat) (session : Session U) : State U :=
  { s with sessions := Function.update s.sessions client session }

/-- One step; `none` when the client is not where the step begins. -/
def step (s : State U) : Event U → Option (State U)
  | .start client username =>
      match s.sessions client with
      | .connecting =>
          match s.server.assign username with
          | (some playerId, server) =>
              some ({ s with server := server }.setSession client (.active username playerId))
          | (none, server) =>
              some ({ s with server := server }.setSession client (.refused username))
      | _ => none
  | .abandon client =>
      match s.sessions client with
      | .connecting => some (s.setSession client .closed)
      | _ => none
  | .finish client =>
      match s.sessions client with
      | .active username _ | .refused username =>
          some ({ s with server := s.server.disconnect username }.setSession client .closed)
      | _ => none

/-- The steps of a run, in their order. -/
def run (s : State U) (events : List (Event U)) : Option (State U) :=
  events.foldlM step s

/-- Active sessions that hold the same id have the same user. -/
def Exclusive (s : State U) : Prop :=
  ∀ c c' u u' k, s.sessions c = .active u k → s.sessions c' = .active u' k → u = u'

/-! ## When a user comes twice -/

/-- One of two sessions of a user ends, and the next user gets the id of the other
one. -/
theorem not_exclusive_second_session :
    ∃ s : State String, run (State.init (getAvailablePlayerIds "#01#"))
      [.start 0 "alice", .start 1 "alice", .finish 0, .start 2 "bob"] = some s ∧
      ¬ Exclusive s :=
  ⟨_, rfl, fun h => absurd (h 1 2 "alice" "bob" 0 rfl rfl) (by decide)⟩

/-- The user of a session that has asked for an id. -/
def Session.user : Session U → Option U
  | .active username _ | .refused username => some username
  | _ => none

/-- A `finally` clause that deletes the entry of its user runs when no other session
of that user is active. -/
def EndsLast (s : State U) : Event U → Prop
  | .finish client => ∀ u ∈ (s.sessions client).user, u ∈ s.server.players.keys →
      ∀ c ≠ client, ∀ k, s.sessions c ≠ .active u k
  | _ => True

/-- Every step of the run meets `EndsLast` in the state before it. -/
def EachEndsLast : State U → List (Event U) → Prop
  | _, [] => True
  | s, e :: events => EndsLast s e ∧ ∀ t, step s e = some t → EachEndsLast t events

/-- What the sessions remember is what `players` says, and it says something
different for every user. -/
structure Consistent (s : State U) : Prop where
  held : ∀ c u k, s.sessions c = .active u k → s.server.players.get? u = some k
  inj : ∀ u v k, s.server.players.get? u = some k → s.server.players.get? v = some k → u = v

theorem consistent_init (availablePlayerIds : List Nat) :
    Consistent (State.init availablePlayerIds : State U) :=
  ⟨fun _ _ _ h => by simp [State.init] at h, fun _ _ _ h => by simp [State.init] at h⟩

theorem Consistent.exclusive {s : State U} (h : Consistent s) : Exclusive s :=
  fun c c' u u' k hc hc' => h.inj u u' k (h.held c u k hc) (h.held c' u' k hc')

/-- What an assignment can do. -/
theorem assign_cases (server : Server U) (username : U) :
    (∃ k, server.players.get? username = some k ∧
      server.assign username = (some k, server)) ∨
    (∃ k, server.players.get? username = none ∧ k ∉ server.players.values ∧
      server.assign username =
        (some k, { server with players := server.players.set username k })) ∨
    server.assign username = (none, server) := by
  unfold Server.assign
  cases server.players.get? username with
  | some k => exact .inl ⟨k, rfl, rfl⟩
  | none =>
      dsimp only
      cases hmin : (server.availablePlayerIds.filter (· ∉ server.players.values)).min? with
      | none => exact .inr (.inr rfl)
      | some k =>
          have hfree := (List.mem_filter.mp (List.min?_mem hmin)).2
          exact .inr (.inl ⟨k, rfl, by simpa using hfree, rfl⟩)

section
variable {s t : State U}

/-- A session that is not active is of no concern to the others. -/
theorem Consistent.setSession (h : Consistent s) (client : Nat) {session : Session U}
    (hs : ∀ u k, session = .active u k → s.server.players.get? u = some k) :
    Consistent (s.setSession client session) := by
  refine ⟨fun c u k hc => ?_, h.inj⟩
  simp only [State.setSession, Function.update_apply] at hc
  split at hc
  · exact hs u k hc
  · exact h.held c u k hc

/-- A new entry for a user without one, with an id that nobody has. -/
theorem Consistent.set (h : Consistent s) {username : U} {k : Nat}
    (hnew : s.server.players.get? username = none) (hfree : k ∉ s.server.players.values) :
    Consistent { s with server :=
      { s.server with players := s.server.players.set username k } } := by
  have hne (u : U) (j : Nat) (hu : s.server.players.get? u = some j) : username ≠ u ∧ k ≠ j :=
    ⟨fun heq => by simp [← heq, hnew] at hu,
      fun heq => hfree (heq ▸ Dict.mem_values_iff.mpr ⟨u, hu⟩)⟩
  refine ⟨fun c u j hc => ?_, fun u v j hu hv => ?_⟩
  · have hu := h.held c u j hc
    exact (Dict.get?_set_of_ne _ (hne u j hu).1 _).trans hu
  · simp only [Dict.get?_set] at hu hv
    split at hu <;> split at hv
    next heq heq' => exact heq.symm.trans heq'
    next => exact absurd (Option.some.inj hu) (hne v j hv).2
    next => exact absurd (Option.some.inj hv) (hne u j hu).2
    next => exact h.inj u v j hu hv

/-- The entry of a user without active sessions is deleted. -/
theorem Consistent.disconnect (h : Consistent s) {username : U}
    (hlast : username ∈ s.server.players.keys → ∀ c k, s.sessions c ≠ .active username k) :
    Consistent { s with server := s.server.disconnect username } := by
  unfold Server.disconnect
  split
  next hmem =>
    refine ⟨fun c u k hc => ?_, fun u v k hu hv => ?_⟩
    · have hne : username ≠ u := fun heq => hlast hmem c k (heq ▸ hc)
      simpa [Dict.get?_erase, hne] using h.held c u k hc
    · simp only [Dict.get?_erase] at hu hv
      split at hu <;> split at hv <;> simp_all
      exact h.inj u v k hu hv
  next => exact h

/-- The `finally` clause of a client whose user is `username`. -/
theorem Consistent.finish (h : Consistent s) {client : Nat} {username : U}
    (huser : (s.sessions client).user = some username) (hlast : EndsLast s (.finish client)) :
    Consistent ({ s with server := s.server.disconnect username }.setSession client .closed) := by
  have hclosed : Consistent (s.setSession client .closed) := h.setSession client (by simp)
  refine hclosed.disconnect fun hmem c k hc => ?_
  simp only [State.setSession, Function.update_apply] at hc
  split at hc
  next => cases hc
  next hne => exact hlast username huser hmem c hne k hc

/-- A step that meets `EndsLast` keeps the sessions consistent. -/
theorem step_consistent {e : Event U} (h : Consistent s) (he : EndsLast s e)
    (hstep : step s e = some t) : Consistent t := by
  cases e with
  | start client username =>
      cases hc : s.sessions client <;> simp only [step, hc, reduceCtorEq] at hstep
      rcases assign_cases s.server username with ⟨k, hk, ha⟩ | ⟨k, hk, hfree, ha⟩ | ha
      all_goals
        rw [ha] at hstep
        obtain rfl := Option.some.inj hstep
      · exact h.setSession client (by rintro u j ⟨⟩; exact hk)
      · exact (h.set hk hfree).setSession client (by
          rintro u j ⟨⟩
          exact Dict.get?_set_self ..)
      · exact h.setSession client (by simp)
  | abandon client =>
      cases hc : s.sessions client <;> simp only [step, hc, reduceCtorEq] at hstep
      obtain rfl := Option.some.inj hstep
      exact h.setSession client (by simp)
  | finish client =>
      cases hc : s.sessions client <;> simp only [step, hc, reduceCtorEq] at hstep
      all_goals
        obtain rfl := Option.some.inj hstep
        exact h.finish (by rw [hc]; rfl) he

end

/-- In every run whose steps meet `EndsLast` the ids are exclusive in every state
reached. -/
theorem exclusive_of_eachEndsLast (availablePlayerIds : List Nat) (events : List (Event U))
    (s : State U) (hends : EachEndsLast (State.init availablePlayerIds) events)
    (hrun : run (State.init availablePlayerIds) events = some s) : Exclusive s := by
  suffices h : ∀ s₀ : State U, Consistent s₀ → EachEndsLast s₀ events →
      run s₀ events = some s → Consistent s from
    (h _ (consistent_init availablePlayerIds) hends hrun).exclusive
  clear hends hrun
  induction events with
  | nil =>
      intro s₀ h _ hrun
      obtain rfl := Option.some.inj hrun
      exact h
  | cons e events ih =>
      intro s₀ h hends hrun
      obtain ⟨t, hstep, hrest⟩ := Option.bind_eq_some_iff.mp hrun
      exact ih t (step_consistent h hends.1 hstep) (hends.2 t hstep) hrest

/-- Users that come once, one of them after another has left. -/
theorem exclusive_of_eachEndsLast_once :
    EachEndsLast (State.init (getAvailablePlayerIds "#01#"))
      [.start 0 "alice", .start 1 "bob", .finish 0, .start 2 "carol"] ∧
    ∃ s : State String, run (State.init (getAvailablePlayerIds "#01#"))
      [.start 0 "alice", .start 1 "bob", .finish 0, .start 2 "carol"] = some s ∧ Exclusive s := by
  have hends : EachEndsLast (State.init (getAvailablePlayerIds "#01#"))
      [.start 0 "alice", .start 1 "bob", .finish 0, .start 2 "carol"] := by
    refine ⟨trivial, fun t₁ h₁ => ⟨trivial, fun t₂ h₂ => ⟨?_, fun _ _ => ⟨trivial, ?_⟩⟩⟩⟩
    rotate_left
    · exact fun _ _ => trivial
    obtain rfl : _ = t₁ := Option.some.inj h₁
    obtain rfl : _ = t₂ := Option.some.inj h₂
    rintro u ⟨⟩ - c hc k hk
    have hone : c = 1 := by
      by_contra hne
      simp [State.setSession, State.init, hc, hne] at hk
    subst hone
    have huser : some "bob" = some "alice" := congrArg Session.user hk
    exact absurd huser (by decide)
  exact ⟨hends, _, rfl, exclusive_of_eachEndsLast _ _ _ hends rfl⟩

end OsCourse.Online
