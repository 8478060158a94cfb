import Mathlib.Data.List.Perm.Basic
import Mathlib.Data.List.Nodup
import Mathlib.Logic.Function.Basic
import Mathlib.Tactic

/-!
# The pid hash table of pstree

`pstree` keeps the processes it reads from `/proc` in a table of buckets.  A
bucket is a linked list, and a new process goes to its head.  The bucket of a
pid is `pid % ht->size`, where the signed pid is first converted to the 64-bit
unsigned type of the size.

`hashTableLookup_insert` is what a lookup sees after one insertion, and
`perm_entries_insert` is what the walk over all buckets sees.  A run of
insertions makes the table the map that `latest` describes.  `insertAll` is the
loop over the directory entries: every record gets a fresh node and the table
maps its pid to that node (`Stored`).

Addresses of nodes are numbers, given out in the order of allocation.  A
character of a name stands for one byte.
-/

namespace OsCourse.Pstree

/-! ## Buckets -/

/-- An entry of a bucket: a pid and what is kept for it. -/
structure HashNode (α : Type) where
  /-- The key. -/
  pid : Int
  /-- The value. -/
  process : α

/-- The table: a linked list for every bucket number below `size`. -/
structure HashTable (α : Type) where
  /-- The buckets. -/
  buckets : Nat → List (HashNode α)
  /-- The number of buckets. -/
  size : Nat

variable {α : Type}

/-- `HASH_TABLE_SIZE`. -/
def hashTableSize : Nat := 1024

/-- The empty table. -/
def createHashTable (size : Nat) : HashTable α := ⟨fun _ => [], size⟩

/-- The bucket of a pid: `pid % ht->size` in unsigned 64-bit arithmetic. -/
def HashTable.index (ht : HashTable α) (pid : Int) : Nat := (pid % 2 ^ 64).toNat % ht.size

/-- A new entry goes to the head of its bucket. -/
def hashTableInsert (ht : HashTable α) (pid : Int) (process : α) : HashTable α :=
  { ht with
    buckets := Function.update ht.buckets (ht.index pid)
      (⟨pid, process⟩ :: ht.buckets (ht.index pid)) }

/-- The first entry of a bucket with the pid. -/
def lookupBucket (pid : Int) : List (HashNode α) → Option α
  | [] => none
  | node :: next => if node.pid = pid then some node.process else lookupBucket pid next

/-- The value of a pid. -/
def hashTableLookup (ht : HashTable α) (pid : Int) : Option α :=
  lookupBucket pid (ht.buckets (ht.index pid))

/-- The entries in the order of the loop over all buckets. -/
def HashTable.entries (ht : HashTable α) : List (HashNode α) :=
  (List.range ht.size).flatMap ht.buckets

/-- The values in the order of the loop over all buckets. -/
def HashTable.walk (ht : HashTable α) : List α :=
  (List.range ht.size).flatMap fun i => (ht.buckets i).map HashNode.process

@[simp] theorem size_insert (ht : HashTable α) (pid : Int) (v : α) :
    (hashTableInsert ht pid v).size = ht.size := rfl

theorem buckets_insert (ht : HashTable α) (pid : Int) (v : α) :
    (hashTableInsert ht pid v).buckets = Function.update ht.buckets (ht.index pid)
      (⟨pid, v⟩ :: ht.buckets (ht.index pid)) := rfl

@[simp] theorem index_insert (ht : HashTable α) (pid q : Int) (v : α) :
    (hashTableInsert ht pid v).index q = ht.index q := rfl

@[simp] theorem hashTableLookup_create (size : Nat) (pid : Int) :
    hashTableLookup (createHashTable size : HashTable α) pid = none := rfl

theorem hashTableLookup_insert (ht : HashTable α) (pid q : Int) (v : α) :
    hashTableLookup (hashTableInsert ht pid v) q =
      if pid = q then some v else hashTableLookup ht q := by
  rw [hashTableLookup, index_insert, buckets_insert]
  rcases eq_or_ne (ht.index q) (ht.index pid) with hi | hi
  · rw [hi, Function.update_self, lookupBucket, hashTableLookup, hi]
  · have hne : pid ≠ q := fun h => hi (h ▸ rfl)
    rw [Function.update_of_ne hi, if_neg hne, hashTableLookup]

theorem flatMap_update_perm {β : Type} {f : Nat → List β} {i : Nat} {x : β} {l : List Nat}
    (hl : l.Nodup) (hi : i ∈ l) :
    (l.flatMap (Function.update f i (x :: f i))).Perm (x :: l.flatMap f) := by
  induction l with
  | nil => cases hi
  | cons a l ih =>
      obtain ⟨hal, hl⟩ := List.nodup_cons.mp hl
      rw [List.flatMap_cons, List.flatMap_cons]
      cases List.mem_cons.mp hi with
      | inl h =>
          subst h
          have hrest : l.flatMap (Function.update f i (x :: f i)) = l.flatMap f :=
            List.flatMap_congr fun b hb =>
              Function.update_of_ne (fun h : b = i => hal (h ▸ hb)) _ _
          rw [Function.update_self, hrest, List.cons_append]
      | inr h =>
          have hne : a ≠ i := fun h' => hal (h' ▸ h)
          rw [Function.update_of_ne hne]
          exact ((ih hl h).append_left _).trans List.perm_middle

theorem HashTable.walk_eq_map (ht : HashTable α) : ht.walk = ht.entries.map HashNode.process :=
  List.map_flatMap.symm

variable {ht : HashTable α} {rs : List Record}

theorem perm_entries_insert (hsize : 0 < ht.size) (pid : Int) (v : α) :
    (hashTableInsert ht pid v).entries.Perm (⟨pid, v⟩ :: ht.entries) := by
  rw [HashTable.entries, size_insert, buckets_insert]
  exact flatMap_update_perm List.nodup_range (List.mem_range.mpr (Nat.mod_lt _ hsize))

theorem perm_walk_insert (hsize : 0 < ht.size) (pid : Int) (v : α) :
    (hashTableInsert ht pid v).walk.Perm (v :: ht.walk) := by
  rw [HashTable.walk_eq_map, HashTable.walk_eq_map]
  exact (perm_entries_insert hsize pid v).map HashNode.process

/-! ## The table as a map -/

/-- Insertions one after the other, the first of the list first. -/
def insertEntries (ht : HashTable α) : List (HashNode α) → HashTable α
  | [] => ht
  | e :: es => insertEntries (hashTableInsert ht e.pid e.process) es

/-- The process of the last entry with the pid. -/
def latest (es : List (HashNode α)) (pid : Int) : Option α :=
  (es.reverse.find? fun e => e.pid = pid).map HashNode.process

theorem latest_cons (e : HashNode α) (es : List (HashNode α)) (pid : Int) :
    latest (e :: es) pid = (latest es pid).or (if e.pid = pid then some e.process else none) := by
  rw [latest, latest, List.reverse_cons, List.find?_append]
  cases es.reverse.find? fun e => e.pid = pid with
  | some d => rfl
  | none => by_cases h : e.pid = pid <;> simp [h]

/-- A later entry of a pid hides the earlier ones and what the table had. -/
theorem hashTableLookup_insertEntries (ht : HashTable α) (es : List (HashNode α)) (pid : Int) :
    hashTableLookup (insertEntries ht es) pid = (latest es pid).or (hashTableLookup ht pid) := by
  induction es generalizing ht with
  | nil => rfl
  | cons e es ih =>
      rw [insertEntries, ih, latest_cons, hashTableLookup_insert, Option.or_assoc]
      split <;> rfl

theorem perm_insertEntries (hsize : 0 < ht.size) (es : List (HashNode α)) :
    (insertEntries ht es).entries.Perm (es ++ ht.entries) := by
  induction es generalizing ht with
  | nil => exact .refl _
  | cons e es ih =>
      have hhead := perm_entries_insert hsize e.pid e.process
      have hrest : (insertEntries ht (e :: es)).entries.Perm
          (es ++ (hashTableInsert ht e.pid e.process).entries) := ih hsize
      exact hrest.trans ((hhead.append_left es).trans List.perm_middle)

theorem entries_create (size : Nat) : (createHashTable size : HashTable α).entries = [] :=
  List.flatMap_eq_nil_iff.mpr fun _ _ => rfl

/-- A table of any positive size is a map from pids to processes: a lookup finds
the latest insertion, and the walk over the buckets meets every inserted entry
once. -/
theorem hashTable_refines_map {size : Nat} (hsize : 1 ≤ size) (es : List (HashNode α)) :
    (∀ pid, hashTableLookup (insertEntries (createHashTable size) es) pid = latest es pid) ∧
    (insertEntries (createHashTable size) es).entries.Perm es ∧
    (insertEntries (createHashTable size) es).walk.Perm (es.map HashNode.process) := by
  have hperm : (insertEntries (createHashTable size) es).entries.Perm es := by
    have hpos : 0 < (createHashTable size : HashTable α).size := hsize
    have h := perm_insertEntries hpos es
    rwa [entries_create, List.append_nil] at h
  refine ⟨fun pid => ?_, hperm, ?_⟩
  · rw [hashTableLookup_insertEntries, hashTableLookup_create, Option.or_none]
  · rw [HashTable.walk_eq_map]
    exact hperm.map HashNode.process

/-- Negative pids share the one bucket with a pid that is inserted twice. -/
theorem hashTable_refines_map_single :
    hashTableLookup (insertEntries (createHashTable 1) [⟨-7, 'a'⟩, ⟨3, 'b'⟩, ⟨-7, 'c'⟩]) (-7) =
      some 'c' := by
  have h := hashTable_refines_map (le_refl 1) [⟨-7, 'a'⟩, ⟨3, 'b'⟩, (⟨-7, 'c'⟩ : HashNode Char)]
  rw [h.1]
  rfl

/-! ## Process nodes -/

/-- What `read_process_info` delivers for one directory entry. -/
structure Record where
  /-- The process. -/
  pid : Int
  /-- Its parent, `0` for none. -/
  ppid : Int
  /-- Its name. -/
  name : List Char
deriving DecidableEq, Repr

/-- A node of the process tree. -/
structure ProcessNode where
  /-- The process. -/
  pid : Int
  /-- Its parent, `0` for none. -/
  ppid : Int
  /-- Its name as stored, without the terminator. -/
  name : List Char
  /-- The parent node. -/
  parent : Option Nat
  /-- The first child. -/
  children : Option Nat
  /-- The next sibling. -/
  sibling : Option Nat

/-- The nodes by address. -/
abbrev Nodes := Nat → ProcessNode

/-- The name as `strncpy` leaves it in the 256 bytes of a node. -/
def storedName (name : List Char) : List Char := (name.takeWhile (· ≠ '\x00')).take 255

/-- A node as the loop fills it, with no links. -/
def newNode (r : Record) : ProcessNode :=
  ⟨r.pid, r.ppid, storedName r.name, none, none, none⟩

/-- The nodes allocated so far and the table over them. -/
structure Memory where
  /-- The nodes. -/
  nodes : Nodes
  /-- The address of the next node. -/
  next : Nat
  /-- The table from pids to addresses. -/
  ht : HashTable Nat

/-- Nothing is allocated and the table is empty. -/
def Memory.empty : Memory :=
  ⟨fun _ => ⟨0, 0, [], none, none, none⟩, 0, createHashTable hashTableSize⟩

/-- One turn of the loop over `/proc`: allocate a node, fill it and insert it. -/
def Memory.insert (m : Memory) (r : Record) : Memory :=
  { nodes := Function.update m.nodes m.next (newNode r)
    next := m.next + 1
    ht := hashTableInsert m.ht r.pid m.next }

@[simp] theorem nodes_insert (m : Memory) (r : Record) :
    (m.insert r).nodes = Function.update m.nodes m.next (newNode r) := rfl

@[simp] theorem ht_insert (m : Memory) (r : Record) :
    (m.insert r).ht = hashTableInsert m.ht r.pid m.next := rfl

/-- The loop over `/proc`. -/
def insertAll : List Record → Memory → Memory
  | [], m => m
  | r :: rs, m => insertAll rs (m.insert r)

/-- The memory holds one unlinked node for every record, at the record's
position, and the table finds it. -/
structure Stored (rs : List Record) (m : Memory) : Prop where
  next_eq : m.next = rs.length
  size_pos : 0 < m.ht.size
  node_eq : ∀ i r, rs[i]? = some r → m.nodes i = newNode r
  lookup_iff : ∀ pid i, hashTableLookup m.ht pid = some i ↔ ∃ r, rs[i]? = some r ∧ r.pid = pid
  walk_perm : m.ht.walk.Perm (List.range rs.length)

theorem stored_empty : Stored [] Memory.empty where
  next_eq := rfl
  size_pos := by decide
  node_eq := by intro i r h; cases h
  lookup_iff := by simp [Memory.empty]
  walk_perm := by
    have hwalk : Memory.empty.ht.walk = [] := by
      rw [HashTable.walk_eq_map, Memory.empty, entries_create, List.map_nil]
    rw [hwalk]
    exact List.Perm.nil

theorem getElem?_concat_iff {r q : Record} {i : Nat} :
    (rs ++ [r])[i]? = some q ↔ rs[i]? = some q ∨ i = rs.length ∧ q = r := by
  rw [List.getElem?_append]
  split
  · constructor
    · exact Or.inl
    · rintro (h | ⟨rfl, -⟩)
      · exact h
      · omega
  · have hnone : rs[i]? = none := List.getElem?_eq_none (by omega)
    rw [hnone, List.getElem?_singleton]
    constructor
    · intro h
      split at h
      · cases h
        exact Or.inr ⟨by omega, rfl⟩
      · cases h
    · rintro (h | ⟨rfl, rfl⟩)
      · cases h
      · simp

theorem Stored.insert {m : Memory} {r : Record} (h : Stored rs m) (hnew : ∀ q ∈ rs, q.pid ≠ r.pid) :
    Stored (rs ++ [r]) (m.insert r) where
  next_eq := by simp [Memory.insert, h.next_eq]
  size_pos := h.size_pos
  node_eq := by
    intro i q hq
    rw [nodes_insert, h.next_eq]
    cases getElem?_concat_iff.mp hq with
    | inl hq =>
        have hi : i < rs.length := (List.getElem?_eq_some_iff.mp hq).1
        rw [Function.update_of_ne hi.ne]
        exact h.node_eq i q hq
    | inr hq =>
        obtain ⟨rfl, rfl⟩ := hq
        rw [Function.update_self]
  lookup_iff := by
    intro pid i
    rw [ht_insert, hashTableLookup_insert, h.next_eq]
    simp only [getElem?_concat_iff]
    split
    next hpid =>
      subst hpid
      constructor
      · intro hi
        cases hi
        exact ⟨r, Or.inr ⟨rfl, rfl⟩, rfl⟩
      · rintro ⟨q, hq | ⟨rfl, rfl⟩, hpid⟩
        · exact absurd hpid (hnew q (List.mem_of_getElem? hq))
        · rfl
    next hpid =>
      rw [h.lookup_iff]
      constructor
      · rintro ⟨q, hq, hqp⟩
        exact ⟨q, Or.inl hq, hqp⟩
      · rintro ⟨q, hq | ⟨rfl, rfl⟩, hqp⟩
        · exact ⟨q, hq, hqp⟩
        · exact absurd hqp hpid
  walk_perm := by
    rw [List.length_append, List.length_singleton, List.range_succ, ht_insert, h.next_eq]
    exact (perm_walk_insert h.size_pos _ _).trans
      ((h.walk_perm.cons _).trans (List.perm_append_singleton _ _).symm)

theorem stored_insertAll {done : List Record} {m : Memory} (h : Stored done m)
    (hpids : ((done ++ rs).map Record.pid).Nodup) : Stored (done ++ rs) (insertAll rs m) := by
  induction rs generalizing done m with
  | nil => rw [List.append_nil]; exact h
  | cons r rs ih =>
      have hsplit : done ++ r :: rs = done ++ [r] ++ rs := by simp
      have hnew : ∀ q ∈ done, q.pid ≠ r.pid := by
        intro q hq heq
        rw [List.map_append, List.map_cons] at hpids
        have hdis := (List.nodup_append'.mp hpids).2.2
        exact hdis (List.mem_map_of_mem hq) (heq ▸ List.mem_cons_self ..)
      rw [hsplit] at hpids ⊢
      exact ih (h.insert hnew) hpids

/-- The loop stores every record when the pids are distinct. -/
theorem stored_records (hpids : (rs.map Record.pid).Nodup) :
    Stored rs (insertAll rs Memory.empty) := by
  have hpids' : (([] ++ rs).map Record.pid).Nodup := hpids
  exact stored_insertAll stored_empty hpids'

end OsCourse.Pstree
