import LegalLens.Library.JsonDump
import LegalLens.Library.Runs

/-!
# Events by publish and subscribe

`publish_event` sends a payload to a channel as JSON, and the generator of `subscribe` yields the
payloads of one channel until its caller closes it. The server keeps nothing: it hands a message
to the connections that are subscribed at that moment. Whatever is published, by any number of
publishers on any channels, a generator yields the payloads sent to its channel since it has been
subscribed, in order and each once. Messages that are empty or not JSON are passed over.
-/

namespace LegalLens.Orchestration

open JsonText

def agentStreamChannel (streamId : String) : String := "agent:stream:" ++ streamId

theorem agentStreamChannel_injective : Function.Injective agentStreamChannel := by
  intro v w h
  have hl := congrArg String.toList h
  simpa [agentStreamChannel, String.toList_inj] using hl

/-- The text that `publish_event` sends, unless `json.dumps` raises for an integer. -/
def eventData (payload : List (List Char × Value)) : Option String :=
  (ascii.dumpsInts IntText.maxStrDigits (.object payload)).map String.ofList

inductive LoadError where
  | jsonDecodeError
  /-- Any other exception, as when a text is nested too deep or an integer has too many digits. -/
  | other
  deriving DecidableEq

/-- `json.loads`; which exception a text causes that cannot be read is a parameter. -/
def jsonLoads (limit : ℕ) (fault : String → LoadError) (data : String) : Except LoadError Json :=
  match loadsInts IntText.maxStrDigits nonFinite limit data.toList with
  | some v => .ok v
  | none => .error (fault data)

/-- What `listen()` yields. -/
inductive Reply where
  | subscribe
  | message (data : String)

def Reply.data? : Reply → Option String
  | .subscribe => none
  | .message data => some data

/-- A generator made by `subscribe`, from the time the server has subscribed its connection. -/
structure Subscription where
  channel : String
  inbox : List Reply
  yielded : List Json
  ended : Bool

namespace Subscription

/-- The server hands a message to a connection that is subscribed to its channel. -/
def receive (channel data : String) (sub : Subscription) : Subscription :=
  if sub.channel = channel ∧ sub.ended = false then
    { sub with inbox := sub.inbox ++ [.message data] }
  else sub

/-- The body of the loop. -/
def handle (loads : String → Except LoadError Json) (sub : Subscription) (reply : Reply) :
    Subscription :=
  match reply with
  | .subscribe => sub
  | .message data =>
    if data = "" then sub
    else
      match loads data with
      | .ok v => { sub with yielded := sub.yielded ++ [v] }
      | .error .jsonDecodeError => sub
      | .error .other => { sub with ended := true }

/-- The next turn of the loop, if the generator has not ended and a reply is there. -/
def next (loads : String → Except LoadError Json) (sub : Subscription) : Option Subscription :=
  match sub.ended, sub.inbox with
  | false, reply :: inbox => some ({ sub with inbox := inbox }.handle loads reply)
  | _, _ => none

theorem channel_next {loads : String → Except LoadError Json} {sub sub' : Subscription}
    (h : sub.next loads = some sub') : sub'.channel = sub.channel := by
  unfold next at h
  split at h
  next reply inbox _ _ =>
    cases h
    unfold handle
    split
    next => rfl
    next =>
      split_ifs
      · rfl
      · split <;> rfl
  next => cases h

end Subscription

/-- The generators, each with its connection. The server keeps no messages. -/
structure PubSub where
  subscriptions : ℕ → Option Subscription

namespace PubSub

inductive Action where
  | publish (channel data : String)
  /-- A new generator is advanced for the first time. -/
  | subscribe (n : ℕ) (channel : String)
  | next (n : ℕ)
  /-- The caller closes the generator, or something raises in it: the `finally` block runs. -/
  | close (n : ℕ)

/-- The commands of `publish_event`. -/
def publishEvent (channel : String) (payload : List (List Char × Value)) : List Action :=
  ((eventData payload).map (.publish channel)).toList

def start : PubSub := ⟨fun _ => none⟩

def set (s : PubSub) (n : ℕ) (sub : Subscription) : PubSub :=
  ⟨Function.update s.subscriptions n (some sub)⟩

@[simp] theorem subscriptions_set_self (s : PubSub) (n : ℕ) (sub : Subscription) :
    (s.set n sub).subscriptions n = some sub :=
  Function.update_self ..

@[simp] theorem subscriptions_set_of_ne (s : PubSub) {m n : ℕ} (h : m ≠ n) (sub : Subscription) :
    (s.set n sub).subscriptions m = s.subscriptions m :=
  Function.update_of_ne h ..

def step (loads : String → Except LoadError Json) (s : PubSub) : Action → Option PubSub
  | .publish channel data =>
    some ⟨fun n => (s.subscriptions n).map (Subscription.receive channel data)⟩
  | .subscribe n channel =>
    match s.subscriptions n with
    | none => some (s.set n ⟨channel, [.subscribe], [], false⟩)
    | some _ => none
  | .next n => ((s.subscriptions n).bind (Subscription.next loads)).map (s.set n)
  | .close n => (s.subscriptions n).map fun sub => s.set n { sub with ended := true }

end PubSub

/-! ## What a generator yields -/

def sentTo (channel : String) (acts : List PubSub.Action) : List String :=
  acts.filterMap fun
    | .publish c data => if c = channel then some data else none
    | _ => none

def valueOf (loads : String → Except LoadError Json) (data : String) : Option Json :=
  if data = "" then none else (loads data).toOption

/-- What the generator has read of the texts and what it has yielded for them; the rest waits in
the connection, unless the generator has ended. -/
def Subscription.Heard (loads : String → Except LoadError Json) (texts : List String)
    (sub : Subscription) : Prop :=
  ∃ read rest, texts = read ++ rest ∧ sub.yielded = read.filterMap (valueOf loads) ∧
    (sub.ended = false → sub.inbox.filterMap Reply.data? = rest)

namespace Subscription.Heard

variable {loads : String → Except LoadError Json} {texts : List String} {sub : Subscription}

theorem receive (h : sub.Heard loads texts) (channel data : String) :
    (sub.receive channel data).Heard loads
      (texts ++ if channel = sub.channel then [data] else []) := by
  obtain ⟨read, rest, rfl, hyielded, hinbox⟩ := h
  unfold Subscription.receive
  by_cases hopen : sub.channel = channel ∧ sub.ended = false
  · rw [if_pos hopen, if_pos hopen.1.symm]
    refine ⟨read, rest ++ [data], List.append_assoc .., hyielded, fun hended => ?_⟩
    simp [Reply.data?, hinbox hended]
  · rw [if_neg hopen]
    refine ⟨read, rest ++ _, List.append_assoc .., hyielded, fun hended => ?_⟩
    rw [if_neg fun h => hopen ⟨h.symm, hended⟩, List.append_nil]
    exact hinbox hended

theorem close (h : sub.Heard loads texts) : { sub with ended := true }.Heard loads texts := by
  obtain ⟨read, rest, htexts, hyielded, -⟩ := h
  exact ⟨read, rest, htexts, hyielded, fun hended => by cases hended⟩

theorem next (h : sub.Heard loads texts) {sub' : Subscription}
    (hnext : sub.next loads = some sub') : sub'.Heard loads texts := by
  obtain ⟨read, rest, htexts, hyielded, hinbox⟩ := h
  unfold Subscription.next at hnext
  split at hnext
  next reply inbox hended hreplies =>
    cases hnext
    have hrest := hinbox hended
    rw [hreplies] at hrest
    cases reply with
    | subscribe => exact ⟨read, rest, htexts, hyielded, fun _ => hrest⟩
    | message data =>
      -- The text moves from what waits to what has been read.
      obtain ⟨rest', rfl⟩ : ∃ rest', rest = data :: rest' := ⟨_, hrest.symm⟩
      have hread : texts = (read ++ [data]) ++ rest' := by simp [htexts]
      have hwaits : inbox.filterMap Reply.data? = rest' := (List.cons.inj hrest).2
      unfold Subscription.handle
      dsimp only
      split_ifs with hempty
      · exact ⟨_, rest', hread, by simp [hyielded, valueOf, hempty], fun _ => hwaits⟩
      · split
        next v hv =>
          exact ⟨_, rest', hread, by simp [hyielded, valueOf, hempty, hv, Except.toOption],
            fun _ => hwaits⟩
        next hv =>
          exact ⟨_, rest', hread, by simp [hyielded, valueOf, hempty, hv, Except.toOption],
            fun _ => hwaits⟩
        next hv =>
          exact ⟨_, rest', hread, by simp [hyielded, valueOf, hempty, hv, Except.toOption],
            fun hended => by cases hended⟩
  next => cases hnext

end Subscription.Heard

namespace PubSub

variable {loads : String → Except LoadError Json}

/-- Every generator has heard what was sent to its channel after it subscribed. -/
def Tuned (loads : String → Except LoadError Json) (acts : List Action) (s : PubSub) : Prop :=
  ∀ n sub, s.subscriptions n = some sub → ∃ pre post,
    acts = pre ++ .subscribe n sub.channel :: post ∧ sub.Heard loads (sentTo sub.channel post)

theorem sentTo_concat (channel : String) (acts : List Action) (a : Action) :
    sentTo channel (acts ++ [a]) = sentTo channel acts ++ sentTo channel [a] :=
  List.filterMap_append

theorem sentTo_publish (channel c data : String) :
    sentTo channel [.publish c data] = if c = channel then [data] else [] := by
  by_cases h : c = channel <;> simp [sentTo, h]

section Step

variable {acts : List Action} {t : PubSub} {a : Action} {n : ℕ} {sub sub' : Subscription}

theorem Tuned.concat (ht : t.Tuned loads acts) (hsub : t.subscriptions n = some sub)
    (hchannel : sub'.channel = sub.channel)
    (h : ∀ texts, sub.Heard loads texts → sub'.Heard loads (texts ++ sentTo sub.channel [a])) :
    ∃ pre post, acts ++ [a] = pre ++ .subscribe n sub'.channel :: post ∧
      sub'.Heard loads (sentTo sub'.channel post) := by
  obtain ⟨pre, post, rfl, hheard⟩ := ht n sub hsub
  rw [hchannel]
  refine ⟨pre, post ++ [a], by simp, ?_⟩
  rw [sentTo_concat]
  exact h _ hheard

theorem Tuned.set (ht : t.Tuned loads acts) (ha : ∀ channel, sentTo channel [a] = [])
    (h : ∃ pre post, acts ++ [a] = pre ++ .subscribe n sub'.channel :: post ∧
      sub'.Heard loads (sentTo sub'.channel post)) : (t.set n sub').Tuned loads (acts ++ [a]) := by
  intro m other hother
  by_cases hm : m = n
  · subst hm
    rw [subscriptions_set_self] at hother
    cases hother
    exact h
  · rw [subscriptions_set_of_ne t hm] at hother
    exact ht.concat hother rfl fun texts htexts => by rwa [ha, List.append_nil]

theorem Tuned.update (ht : t.Tuned loads acts) (ha : ∀ channel, sentTo channel [a] = [])
    (hsub : t.subscriptions n = some sub) (hchannel : sub'.channel = sub.channel)
    (h : ∀ texts, sub.Heard loads texts → sub'.Heard loads texts) :
    (t.set n sub').Tuned loads (acts ++ [a]) :=
  ht.set ha (ht.concat hsub hchannel fun texts htexts => by
    rw [ha, List.append_nil]
    exact h texts htexts)

theorem Tuned.step {s : PubSub} (ht : t.Tuned loads acts) (hstep : t.step loads a = some s) :
    s.Tuned loads (acts ++ [a]) := by
  cases a with
  | publish channel data =>
    cases hstep
    intro n sub hsub
    obtain ⟨before, hbefore, rfl⟩ := Option.map_eq_some_iff.mp hsub
    have hchannel : (before.receive channel data).channel = before.channel := by
      unfold Subscription.receive
      split_ifs <;> rfl
    refine ht.concat hbefore hchannel fun texts htexts => ?_
    rw [sentTo_publish]
    exact htexts.receive channel data
  | subscribe n channel =>
    simp only [PubSub.step] at hstep
    split at hstep <;> cases hstep
    exact ht.set (fun _ => rfl) ⟨acts, [], rfl, [], [], rfl, rfl, fun _ => rfl⟩
  | next n =>
    obtain ⟨sub', hsub', rfl⟩ := Option.map_eq_some_iff.mp hstep
    obtain ⟨sub, hsub, hnext⟩ := Option.bind_eq_some_iff.mp hsub'
    exact ht.update (fun _ => rfl) hsub (Subscription.channel_next hnext)
      fun _ htexts => htexts.next hnext
  | close n =>
    obtain ⟨sub, hsub, rfl⟩ := Option.map_eq_some_iff.mp hstep
    exact ht.update (fun _ => rfl) hsub rfl fun _ htexts => htexts.close

end Step

theorem tuned_run {acts : List Action} {s : PubSub}
    (hrun : Runs.run (step loads) start acts = some s) : s.Tuned loads acts := by
  induction acts using List.reverseRecOn generalizing s with
  | nil =>
    cases hrun
    rintro n sub ⟨⟩
  | append_singleton acts a ih =>
    obtain ⟨t, ht, hstep⟩ := Runs.run_concat_eq_some.mp hrun
    exact (ih ht).step hstep

theorem valueOf_eventData {limit : ℕ} (fault : String → LoadError)
    {payload : List (List Char × Value)} {data : String}
    (hdepth : (Value.object payload).json.depth ≤ limit) (hdata : eventData payload = some data) :
    valueOf (jsonLoads limit fault) data = some (Value.object payload).json := by
  obtain ⟨text, htext, rfl⟩ := Option.map_eq_some_iff.mp hdata
  have hloads := ascii.loadsInts_of_dumpsInts nonFinite hdepth htext
  have hne : String.ofList text ≠ "" := by
    intro hempty
    obtain rfl : text = [] := by simpa using congrArg String.toList hempty
    cases limit <;> cases hloads
  rw [valueOf, if_neg hne, jsonLoads, String.toList_ofList, hloads]
  rfl

/-- What a generator yields are values of texts that were sent to its channel after it subscribed,
from the first on and in their order, and all of them once nothing waits and it has not ended. If
`publish_event` sent these texts, the values are the payloads. -/
theorem yields_published {limit : ℕ} {fault : String → LoadError} {acts : List Action} {s : PubSub}
    (hrun : Runs.run (step (jsonLoads limit fault)) start acts = some s) {n : ℕ}
    {sub : Subscription} (hsub : s.subscriptions n = some sub) :
    ∃ pre post, acts = pre ++ .subscribe n sub.channel :: post ∧
      let values := (sentTo sub.channel post).filterMap (valueOf (jsonLoads limit fault))
      sub.yielded <+: values ∧
        (sub.ended = false → sub.inbox.filterMap Reply.data? = [] → sub.yielded = values) ∧
        ∀ payloads : List (List (List Char × Value)),
          (∀ payload ∈ payloads, (Value.object payload).json.depth ≤ limit) →
          (sentTo sub.channel post).map some = payloads.map eventData →
          values = payloads.map fun payload => (Value.object payload).json := by
  obtain ⟨pre, post, hacts, read, rest, htexts, hyielded, hinbox⟩ := tuned_run hrun n sub hsub
  refine ⟨pre, post, hacts, ?_, ?_, ?_⟩
  · rw [htexts, List.filterMap_append, hyielded]
    exact List.prefix_append _ _
  · intro hended hempty
    rw [htexts, ← hinbox hended, hempty, List.append_nil, hyielded]
  · intro payloads hdepth hpayloads
    have hdata : ∀ payload ∈ payloads,
        (eventData payload).bind (valueOf (jsonLoads limit fault)) =
          some (Value.object payload).json := by
      intro payload hpayload
      have hmem := List.mem_map_of_mem (f := eventData) hpayload
      rw [← hpayloads] at hmem
      obtain ⟨data, -, hdata⟩ := List.mem_map.mp hmem
      rw [← hdata]
      exact valueOf_eventData fault (hdepth payload hpayload) hdata.symm
    calc (sentTo sub.channel post).filterMap (valueOf (jsonLoads limit fault))
        = ((sentTo sub.channel post).map some).filterMap
            (fun data => data.bind (valueOf (jsonLoads limit fault))) := by
          rw [List.filterMap_map]
          rfl
      _ = payloads.filterMap
            (fun payload => (eventData payload).bind (valueOf (jsonLoads limit fault))) := by
          rw [hpayloads, List.filterMap_map]
          rfl
      _ = payloads.map fun payload => (Value.object payload).json := by
          rw [← List.filterMap_eq_map]
          exact List.filterMap_congr hdata

/-- Of five messages, one comes too early, one is for another stream and two are no JSON. -/
theorem yields_published_mixed :
    let a := agentStreamChannel "a"
    let loads := jsonLoads 100 fun _ => .jsonDecodeError
    let acts : List Action :=
      publishEvent a [] ++ .subscribe 0 a :: publishEvent a [("type".toList, .string ['é'])] ++
        publishEvent (agentStreamChannel "b") [] ++
        [.publish a "", .publish a "\x7b", .next 0, .next 0, .next 0, .next 0]
    ∃ s sub, Runs.run (step loads) start acts = some s ∧ s.subscriptions 0 = some sub ∧
      sub.yielded.length = 1 ∧ ∃ pre post, acts = pre ++ .subscribe 0 sub.channel :: post ∧
        sub.yielded = (sentTo sub.channel post).filterMap (valueOf loads) := by
  intro a loads acts
  have hrun : ((Runs.run (step loads) start acts).bind fun s => s.subscriptions 0).map
      (fun sub => (sub.yielded.length, sub.ended, sub.inbox.filterMap Reply.data?)) =
        some (1, false, []) := by
    decide +kernel
  obtain ⟨sub, hsome, hvalues⟩ := Option.map_eq_some_iff.mp hrun
  obtain ⟨s, hs, hsub⟩ := Option.bind_eq_some_iff.mp hsome
  obtain ⟨hlength, hopen⟩ := Prod.mk.inj hvalues
  obtain ⟨hended, hempty⟩ := Prod.mk.inj hopen
  obtain ⟨pre, post, hacts, -, hall, -⟩ := yields_published hs hsub
  exact ⟨s, sub, hs, hsub, hlength, pre, post, hacts, hall hended hempty⟩

end PubSub

end LegalLens.Orchestration
