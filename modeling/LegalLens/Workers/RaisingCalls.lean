import LegalLens.Workers.Routing

/-!
# Calls of the ring that raise

A call raises when a label cannot be encoded to UTF-8, which happens before the first vnode
of that worker is stored, or when the iterable of a rebuild raises. The loops below return
the dictionary as they leave it. Additions and removals that raise have changed nothing,
but a rebuild has cleared the dictionary by then, while the sorted list still has the old
points.
-/

namespace LegalLens.Workers

/-- A Python string: any code points, surrogates included. -/
abbrev PyString := List (Fin 0x110000)

namespace PyString

def char? (c : Fin 0x110000) : Option Char :=
  if h : c.val.isValidChar then some (Char.ofNatAux c.val h) else none

/-- `s.encode("utf-8")`, up to the bytes: it fails if there is a surrogate. -/
def encode (s : PyString) : Option String := (s.mapM char?).map String.ofList

def ofText (s : String) : PyString := s.toList.map fun c => Fin.ofNat 0x110000 c.toNat

theorem char?_ofNat (c : Char) : char? (Fin.ofNat 0x110000 c.toNat) = some c := by
  have hvalid : c.toNat.isValidChar := c.valid
  have hlt : c.toNat < 0x110000 := by
    rcases hvalid with h | ⟨-, h⟩
    · exact h.trans (by decide)
    · exact h
  have hval : (Fin.ofNat 0x110000 c.toNat).val = c.toNat := Nat.mod_eq_of_lt hlt
  have hisValid : (Fin.ofNat 0x110000 c.toNat).val.isValidChar := by
    rw [hval]
    exact hvalid
  unfold char?
  rw [dif_pos hisValid]
  exact congrArg some (Char.toNat_inj.mp hval)

theorem encode_ofText (s : String) : encode (ofText s) = some s := by
  have hchars : ∀ cs : List Char,
      (cs.map fun c => Fin.ofNat 0x110000 c.toNat).mapM char? = some cs := by
    intro cs
    induction cs with
    | nil => rfl
    | cons c cs ih =>
      rw [List.map_cons, List.mapM_cons, char?_ofNat, ih]
      rfl
  rw [encode, ofText, hchars, Option.map_some, String.ofList_toList]

theorem encode_append (s t : PyString) :
    encode (s ++ t) = (encode s).bind fun a => (encode t).map fun b => a ++ b := by
  unfold encode
  rw [List.mapM_append]
  cases s.mapM char? with
  | none => rfl
  | some a =>
    cases t.mapM char? with
    | none => rfl
    | some b => simp [String.ofList_append]

/-- `f"{worker_id}#{i}"`. -/
def label (id : PyString) (i : ℕ) : PyString := id ++ ofText ("#" ++ toString i)

theorem encode_label (id : PyString) (i : ℕ) :
    encode (label id i) = (encode id).map fun w => vnodeLabel w i := by
  rw [label, encode_append, encode_ofText]
  cases encode id with
  | none => rfl
  | some w => simp [vnodeLabel, String.append_assoc]

end PyString

namespace ConsistentHashRing

open PyString

inductive CallError where
  | unicodeEncodeError
  | iterableError
  deriving DecidableEq, Repr

/-- What an iterable yields; it may raise after its items. -/
structure WorkerIds where
  items : List PyString
  raises : Bool

inductive Call where
  | add (workerId : PyString)
  | remove (workerId : PyString)
  | replace (workerIds : WorkerIds)

variable (hash : String → ℕ)

/-- The text of an id that is stored; its labels have been encoded before. -/
def stored (id : PyString) : String := (encode id).getD ""

def assignLoop (id : PyString) : List ℕ → Dict ℕ String → Dict ℕ String × Option CallError
  | [], ring => (ring, none)
  | i :: is, ring =>
    match encode (label id i) with
    | none => (ring, some .unicodeEncodeError)
    | some key => assignLoop id is (ring.set (hash key) (stored id))

def popLoop (id : PyString) : List ℕ → Dict ℕ String → Dict ℕ String × Option CallError
  | [], ring => (ring, none)
  | i :: is, ring =>
    match encode (label id i) with
    | none => (ring, some .unicodeEncodeError)
    | some key => popLoop id is (ring.pop (hash key))

/-- The loop over the iterable of a rebuild. -/
def rebuildLoop (is : List ℕ) (raises : Bool) :
    List PyString → Dict ℕ String → Dict ℕ String × Option CallError
  | [], ring => (ring, if raises then some .iterableError else none)
  | id :: ids, ring =>
    match assignLoop hash id is ring with
    | (ring, some e) => (ring, some e)
    | (ring, none) => rebuildLoop is raises ids ring

/-- The last statement of a method, which is not reached if its loop has raised. -/
def finish (r : ConsistentHashRing) :
    Dict ℕ String × Option CallError → ConsistentHashRing × Option CallError
  | (ring, some e) => ({ r with ring := ring }, some e)
  | (ring, none) => ({ r with ring := ring, sortedHashes := Sequences.sorted ring.keys }, none)

/-- The ring after a call, and the exception if it raises. -/
def call (r : ConsistentHashRing) : Call → ConsistentHashRing × Option CallError
  | .add id => r.finish (assignLoop hash id r.vnodes r.ring)
  | .remove id => r.finish (popLoop hash id r.vnodes r.ring)
  | .replace ids => r.finish (rebuildLoop hash r.vnodes ids.raises ids.items Dict.empty)

def afterCalls (virtualNodes : ℤ) (calls : List Call) : ConsistentHashRing :=
  calls.foldl (fun r c => (r.call hash c).1) (init virtualNodes)

inductive GetError where
  | unicodeEncodeError
  | lookup (error : LookupError)
  deriving DecidableEq, Repr

/-- `get_worker` for any key. -/
def getWorkerOf (r : ConsistentHashRing) (key : PyString) : Except GetError (Option String) :=
  if r.sortedHashes = [] then .ok none
  else
    match encode key with
    | none => .error .unicodeEncodeError
    | some key =>
      match r.getWorker hash key with
      | .error e => .error (.lookup e)
      | .ok w => .ok w

/-! ## What the loops leave -/

/-- The workers that a rebuild stores: those before the first id that cannot be encoded. -/
def placed (ids : List PyString) : List String :=
  (ids.takeWhile fun id => (encode id).isSome).filterMap encode

theorem assignLoop_of_encode {id : PyString} {w : String} (h : encode id = some w) (is : List ℕ)
    (ring : Dict ℕ String) : assignLoop hash id is ring = (assignVnodes hash is ring w, none) := by
  induction is generalizing ring with
  | nil => rfl
  | cons i is ih =>
    rw [assignLoop, encode_label, h, Option.map_some]
    dsimp only
    rw [ih, stored, h]
    rfl

theorem assignLoop_of_not_encode {id : PyString} (h : encode id = none) (is : List ℕ)
    (ring : Dict ℕ String) : (assignLoop hash id is ring).1 = ring := by
  cases is with
  | nil => rfl
  | cons i is => rw [assignLoop, encode_label, h, Option.map_none]

theorem popLoop_of_raises {id : PyString} {is : List ℕ} {ring : Dict ℕ String}
    (h : (popLoop hash id is ring).2 ≠ none) : (popLoop hash id is ring).1 = ring := by
  cases hid : encode id with
  | none =>
    cases is with
    | nil => rfl
    | cons i is => rw [popLoop, encode_label, hid, Option.map_none]
  | some w =>
    exfalso
    apply h
    clear h
    induction is generalizing ring with
    | nil => rfl
    | cons i is ih =>
      rw [popLoop, encode_label, hid, Option.map_some]
      exact ih

theorem assignLoop_of_raises {id : PyString} {is : List ℕ} {ring : Dict ℕ String}
    (h : (assignLoop hash id is ring).2 ≠ none) : (assignLoop hash id is ring).1 = ring := by
  cases hid : encode id with
  | none => exact assignLoop_of_not_encode hash hid is ring
  | some w =>
    rw [assignLoop_of_encode hash hid] at h
    exact absurd rfl h

/-- A rebuild stores the workers that it gets to, in order. Without vnodes it stores none. -/
theorem rebuildLoop_fst (is : List ℕ) (raises : Bool) (ids : List PyString)
    (ring : Dict ℕ String) :
    (rebuildLoop hash is raises ids ring).1 = (placed ids).foldl (assignVnodes hash is) ring := by
  cases is with
  | nil =>
    have hnone : ∀ ws : List String, ws.foldl (assignVnodes hash []) ring = ring := by
      intro ws
      induction ws with
      | nil => rfl
      | cons w ws ih => exact ih
    rw [hnone]
    induction ids with
    | nil => rfl
    | cons id ids ih => exact ih
  | cons i is =>
    induction ids generalizing ring with
    | nil => rfl
    | cons id ids ih =>
      rw [rebuildLoop]
      cases hid : encode id with
      | none =>
        rw [assignLoop, encode_label, hid]
        simp [placed, hid]
      | some w =>
        have hplaced : placed (id :: ids) = w :: placed ids := by simp [placed, hid]
        rw [assignLoop_of_encode hash hid, hplaced, List.foldl_cons]
        exact ih _

/-- The last of the workers with a vnode at the point. -/
def lastOwner (n : ℤ) (ws : List String) (p : ℕ) : Option String :=
  ws.reverse.find? fun w => decide (∃ i ∈ List.range n.toNat, hash (vnodeLabel w i) = p)

theorem get?_foldl_assignVnodes (n : ℤ) (ws : List String) (p : ℕ) :
    (ws.foldl (assignVnodes hash (List.range n.toNat)) Dict.empty).get? p =
      lastOwner hash n ws p := by
  induction ws using List.reverseRecOn with
  | nil => rfl
  | append_singleton ws w ih =>
    rw [List.foldl_concat, get?_assignVnodes, ih, lastOwner, lastOwner, List.reverse_concat,
      List.find?_cons]
    split_ifs with hp
    · rw [decide_eq_true hp]
    · rw [decide_eq_false hp]

/-! ## Sequences of calls -/

def Raises (r : ConsistentHashRing) (c : Call) : Prop := (r.call hash c).2 ≠ none

/-- The dictionary already sends every point to the last worker that the rebuild stores
there before it raises. Nothing is asked of an addition or a removal. -/
def Restores (r : ConsistentHashRing) : Call → Prop
  | .add _ => True
  | .remove _ => True
  | .replace ids => ∀ p, r.ring.get? p = lastOwner hash r.virtualNodes (placed ids.items) p

/-- The ring is as it was, and so is what every lookup answers. -/
structure Unchanged (r r' : ConsistentHashRing) : Prop where
  state : SameRing r' r
  lookups : ∀ key, r'.getWorkerOf hash key = r.getWorkerOf hash key
  noKeyError : ∀ key p, r'.getWorkerOf hash key ≠ .error (.lookup (.keyError p))

variable {hash}

theorem finish_of_raises {r : ConsistentHashRing} {loop : Dict ℕ String × Option CallError}
    (h : (r.finish loop).2 ≠ none) :
    loop.2 ≠ none ∧ (r.finish loop).1 = { r with ring := loop.1 } := by
  obtain ⟨ring, e⟩ := loop
  cases e with
  | none => exact absurd rfl h
  | some e => exact ⟨Option.some_ne_none e, rfl⟩

theorem indexed_finish {r : ConsistentHashRing} {loop : Dict ℕ String × Option CallError}
    (h : (r.finish loop).2 = none) : (r.finish loop).1.Indexed := by
  obtain ⟨ring, e⟩ := loop
  cases e with
  | none => rfl
  | some e => cases h

/-- What a raising call does to the ring: at most the dictionary changes, and only the
dictionary of a rebuild does. -/
theorem call_of_raises {r : ConsistentHashRing} {c : Call} (h : Raises hash r c) :
    (r.call hash c).1.virtualNodes = r.virtualNodes ∧
      (r.call hash c).1.sortedHashes = r.sortedHashes ∧
      ((∀ p, (r.call hash c).1.ring.get? p = r.ring.get? p) ↔ Restores hash r c) := by
  cases c with
  | add id =>
    obtain ⟨hloop, hring⟩ := finish_of_raises h
    rw [assignLoop_of_raises hash hloop] at hring
    rw [call, hring]
    exact ⟨rfl, rfl, fun _ => trivial, fun _ _ => rfl⟩
  | remove id =>
    obtain ⟨hloop, hring⟩ := finish_of_raises h
    rw [popLoop_of_raises hash hloop] at hring
    rw [call, hring]
    exact ⟨rfl, rfl, fun _ => trivial, fun _ _ => rfl⟩
  | replace ids =>
    obtain ⟨-, hring⟩ := finish_of_raises h
    rw [rebuildLoop_fst] at hring
    rw [call, hring]
    refine ⟨rfl, rfl, forall_congr' fun p => ?_⟩
    dsimp only
    rw [vnodes, get?_foldl_assignVnodes, eq_comm]

theorem getWorkerOf_congr {r s : ConsistentHashRing} (hsorted : r.sortedHashes = s.sortedHashes)
    (h : ∀ key, r.getWorker hash key = s.getWorker hash key) (key : PyString) :
    r.getWorkerOf hash key = s.getWorkerOf hash key := by
  unfold getWorkerOf
  simp only [hsorted, h]

theorem Indexed.getWorkerOf_ne {r : ConsistentHashRing} (hr : r.Indexed) (key : PyString)
    (e : LookupError) : r.getWorkerOf hash key ≠ .error (.lookup e) := by
  intro h
  unfold getWorkerOf at h
  split_ifs at h
  split at h
  · cases h
  next key' _ =>
    rcases hr.getWorker_cases hash key' with ⟨-, hnone⟩ | ⟨p, w, -, -, hsome⟩
    · rw [hnone] at h
      cases h
    · rw [hsome] at h
      cases h

theorem Indexed.call {r : ConsistentHashRing} (hr : r.Indexed) {c : Call}
    (h : Raises hash r c → Restores hash r c) : (r.call hash c).1.Indexed := by
  by_cases hraise : Raises hash r c
  · obtain ⟨-, hsorted, hlookup⟩ := call_of_raises hraise
    have hsame := hlookup.mpr (h hraise)
    unfold Indexed
    rw [hsorted, hr]
    apply Sequences.sorted_eq_of_mem_iff r.ring.nodup_keys (Dict.nodup_keys _)
    intro p
    exact (Dict.keys_perm_of_get?_eq hsame).symm.mem_iff
  · have hreturn : (r.call hash c).2 = none := not_not.mp hraise
    cases c with
    | add id => exact indexed_finish hreturn
    | remove id => exact indexed_finish hreturn
    | replace ids => exact indexed_finish hreturn

theorem unchanged_iff {r : ConsistentHashRing} (hr : r.Indexed) {c : Call}
    (h : Raises hash r c) : Unchanged hash r (r.call hash c).1 ↔ Restores hash r c := by
  obtain ⟨hnodes, hsorted, hlookup⟩ := call_of_raises h
  constructor
  · intro hsame
    exact hlookup.mp hsame.state.lookup
  · intro hrestores
    have hindexed := hr.call fun _ => hrestores
    have hget := hlookup.mpr hrestores
    refine ⟨⟨hnodes, hget, hsorted⟩, ?_, fun key p => hindexed.getWorkerOf_ne key _⟩
    exact getWorkerOf_congr hsorted (hindexed.getWorker_congr hash hr hget)

/-- Every call of the sequence that raises restores what it has cleared. -/
def RestoresThroughout (hash : String → ℕ) (n : ℤ) (calls : List Call) : Prop :=
  ∀ before c rest, calls = before ++ c :: rest → Raises hash (afterCalls hash n before) c →
    Restores hash (afterCalls hash n before) c

theorem indexed_afterCalls {n : ℤ} {calls : List Call}
    (h : RestoresThroughout hash n calls) : (afterCalls hash n calls).Indexed := by
  induction calls using List.reverseRecOn with
  | nil => exact indexed_init n
  | append_singleton calls c ih =>
    rw [afterCalls, List.foldl_concat, ← afterCalls]
    apply Indexed.call
    · apply ih
      rintro before d rest rfl
      exact h before d (rest ++ [c]) (by simp)
    · exact h calls c [] rfl

/-- After any calls of which the raising ones restore what they have cleared, a lookup never
misses an entry, and the next call that raises changes nothing exactly if it restores what
it has cleared as well. -/
theorem raising_call_unchanged_iff (hash : String → ℕ) (n : ℤ) {calls : List Call}
    (h : RestoresThroughout hash n calls) :
    let r := afterCalls hash n calls
    (∀ key e, r.getWorkerOf hash key ≠ .error (.lookup e)) ∧
      ∀ c, Raises hash r c → (Unchanged hash r (r.call hash c).1 ↔ Restores hash r c) := by
  intro r
  have hr : r.Indexed := indexed_afterCalls h
  exact ⟨hr.getWorkerOf_ne, fun c hraise => unchanged_iff hr hraise⟩

/-- A rebuild with the worker that is there, from an iterable that raises after it. -/
theorem raising_call_unchanged_iff_same_worker :
    Unchanged labelValue (afterCalls labelValue 1 [.add (ofText "a")])
      ((afterCalls labelValue 1 [.add (ofText "a")]).call labelValue
        (.replace ⟨[ofText "a"], true⟩)).1 := by
  have hcalls : RestoresThroughout labelValue 1 [.add (ofText "a")] := by
    intro before c rest heq _
    cases before with
    | nil =>
      cases heq
      trivial
    | cons d before => simp at heq
  have hraise : Raises labelValue (afterCalls labelValue 1 [.add (ofText "a")])
      (.replace ⟨[ofText "a"], true⟩) := by
    unfold Raises
    decide
  refine ((raising_call_unchanged_iff labelValue 1 hcalls).2 _ hraise).mpr ?_
  exact get?_foldl_assignVnodes labelValue 1 ["a"]

/-- A rebuild whose iterable raises at once empties the dictionary under the sorted list. -/
theorem failing_rebuild_keyError :
    let r := afterCalls labelValue 1 [.add (ofText "a")]
    let failing := Call.replace ⟨[], true⟩
    (r.call labelValue failing).2 = some .iterableError ∧
      r.getWorkerOf labelValue (ofText "k") = .ok (some "a") ∧
      (r.call labelValue failing).1.getWorkerOf labelValue (ofText "k") =
        .error (.lookup (.keyError (labelValue "a#0"))) := by
  decide

end ConsistentHashRing

end LegalLens.Workers
