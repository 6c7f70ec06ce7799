import Csci4061.Chat.EndOfFile
import Csci4061.Chat.Postings
import Csci4061.Lib.Tickets

/-!
# The chat as a network

The server, all children and all users run together, each connection with its own four pipes. What the
server reads and writes goes through the numbers in the slots, and a number is taken for the end which
it refers to at that time. The steps of all processes interleave in any way.

A text which the server writes is posted to the connections of the slots. A read of the server from an
empty pipe finds nothing, and never the end of file, since the child of a full slot has the other end.
What a user writes to a pipe without a reader stays there.
-/

namespace Csci4061.Chat

open Csci4061.Lib Csci4061.Lib.TransitionSystem

/-- A text which the server wrote, with the slots and the connections in them which it was meant for, and
those whose pipe accepted it. -/
structure Post where
  text : CString
  receivers : List (Fin maxUser × ℕ)
  accepted : List (Fin maxUser × ℕ)
  deriving DecidableEq

/-- The processes, what is in the pipes of each connection, and the texts which the server wrote
so far. -/
structure Network where
  processes : Processes
  traffic : ℕ → Traffic
  posts : List Post

/-- The steps of the server, of a child, and of a user: it writes, it reads, it closes the ends which it
does not use, and it quits. -/
inductive NetworkLabel
  | server (label : ServerLabel)
  | child (pid : ℤ) (n : ℕ)
  | write (k : ℕ) (data : List UInt8)
  | display (k n : ℕ)
  | settle (k : ℕ)
  | quit (k : ℕ)

/-- The text of a write. -/
def Event.text : Event → Option CString
  | .wrote _ _ data => some data
  | _ => none

/-- The connection whose child reads what is written to a descriptor of the server. -/
def Processes.toChild (p : Processes) (fd : ℤ) : Option ℕ :=
  match p.ends fd with
  | some ⟨k, .serverToChild, true⟩ => some k
  | _ => none

/-- The connection whose child writes what is read from a descriptor of the server. -/
def Processes.fromChild (p : Processes) (fd : ℤ) : Option ℕ :=
  match p.ends fd with
  | some ⟨k, .childToServer, false⟩ => some k
  | _ => none

/-- What goes to the child of a connection, among what the server did. -/
def Processes.writtenTo (p : Processes) (k : ℕ) (events : List Event) : List CString :=
  events.filterMap fun event =>
    match event with
    | .wrote _ fd data => if p.toChild fd = some k then some data else none
    | _ => none

/-- A write of the server to the child. -/
def Traffic.deliver (t : Traffic) (data : CString) : Traffic :=
  { t with
    relay := { t.relay with serverWritingToChild := t.relay.serverWritingToChild.tryWrite data }
    sentToUser := t.sentToUser ++ t.relay.serverWritingToChild.accepted data }

/-- A write adds to what was sent to the user what the pipe accepts. -/
@[simp] theorem Traffic.deliver_sentToUser (t : Traffic) (data : CString) :
    (t.deliver data).sentToUser = t.sentToUser ++ t.relay.serverWritingToChild.accepted data := rfl

/-- A write succeeds exactly if there is room in the pipe which its descriptor refers to. -/
def Network.Agrees (s : Network) (outcomes : Fin maxUser → SlotOutcome) : Event → Prop
  | .wrote i fd data => ∀ k ∈ s.processes.toChild fd,
      ((outcomes i).write = true ↔ (s.traffic k).relay.serverWritingToChild.Fits data)
  | _ => True

instance (s : Network) (outcomes : Fin maxUser → SlotOutcome) :
    (event : Event) → Decidable (s.Agrees outcomes event)
  | .wrote _ _ _ => inferInstanceAs (Decidable (∀ k ∈ _, (_ ↔ _)))
  | .forked _ _ => isTrue trivial
  | .killed _ _ => isTrue trivial
  | .handled _ _ => isTrue trivial

/-- A slot and the connection in it. -/
def Processes.seat (p : Processes) (i : Fin maxUser) : Fin maxUser × ℕ := (i, p.connectionOf i)

/-- The text which a step of the server wrote, if it wrote one. -/
def Network.post (s : Network) (label : ServerLabel) (events : List Event) : List Post :=
  match events.filterMap Event.text with
  | [] => []
  | text :: _ =>
    let slots := writtenSlots events
    [{ text := text
       receivers := (intended s.processes.server.table slots
         (broadcastOf s.processes.server label)).map s.processes.seat
       accepted := (slots.filter fun i => (label.outcomes i).write).map s.processes.seat }]

/-- What the server reads in a step, from the pipe which the descriptor of the polled slot refers to. -/
def Network.read (s : Network) : ServerLabel → Option (ℕ → Traffic)
  | .poll input _ =>
    match s.processes.server.phase with
    | .polling (i :: _) =>
      if s.processes.server.table.Full i then
        (s.processes.fromChild (s.processes.server.table.users i).fdToServer).bind fun k =>
          let pipe := (s.traffic k).relay.serverReadingFromChild
          match input with
          | none => if pipe.contents = [] then some s.traffic else none
          | some data =>
            if pipe.contents.take data.val.length = data.val then
              (relayNext (s.traffic k) (.serverRead data.val.length)).map (Function.update s.traffic k)
            else none
      else some s.traffic
    | _ => some s.traffic
  | _ => some s.traffic

/-- One step. -/
def networkNext (s : Network) : NetworkLabel → Option Network
  | .server label =>
    (processNext s.processes (.server label)).bind fun p => (s.read label).bind fun traffic =>
      let events := p.server.table.events.drop s.processes.server.table.events.length
      if ∀ event ∈ events, s.Agrees label.outcomes event then
        some {
          processes := p
          traffic := fun k => (s.processes.writtenTo k events).foldl Traffic.deliver (traffic k)
          posts := s.posts ++ s.post label events }
      else none
  | .child pid n =>
    let k := s.processes.childOf pid
    if pid ∈ s.processes.server.table.children then
      (relayNext (s.traffic k) (.child n)).map fun t =>
        { s with traffic := Function.update s.traffic k t }
    else none
  | .write k data =>
    if s.processes.clients k ≠ [] then
      (relayNext (s.traffic k) (.userWrite data)).map fun t =>
        { s with traffic := Function.update s.traffic k t }
    else none
  | .display k n =>
    if s.processes.clients k ≠ [] then
      (relayNext (s.traffic k) (.userRead n)).map fun t =>
        { s with traffic := Function.update s.traffic k t }
    else none
  | .settle k => (processNext s.processes (.settle k)).map fun p => { s with processes := p }
  | .quit k =>
    if s.processes.clients k ≠ [] then
      (processNext s.processes (.quit k)).bind fun p => (relayNext (s.traffic k) .userClose).map fun t =>
        { s with processes := p, traffic := Function.update s.traffic k t }
    else none

/-- Nobody is connected and nothing was sent. The pipes to come may have any capacities. -/
def NetworkInit (s : Network) : Prop :=
  ProcessInit s.processes ∧ (∀ k, RelayInit (s.traffic k)) ∧ s.posts = []

/-- The network, for any order of the steps of the processes. -/
def networkSystem : TransitionSystem Network NetworkLabel := .ofNext NetworkInit networkNext

variable {s s' : Network}

/-- Only writes go to a child. -/
theorem Processes.writtenTo_filter (p : Processes) (k : ℕ) (events : List Event) :
    p.writtenTo k events = p.writtenTo k (events.filter fun event => event.IsWrite) := by
  rw [writtenTo, writtenTo, List.filterMap_filter]
  congr 1
  funext event
  cases event <;> rfl

/-- Only writes have a text. -/
theorem text_filter (events : List Event) :
    events.filterMap Event.text = (events.filter fun event => event.IsWrite).filterMap Event.text := by
  rw [List.filterMap_filter]
  congr 1
  funext event
  cases event <;> rfl

/-- Only writes are made to slots. -/
theorem writtenSlots_filter (events : List Event) :
    writtenSlots events = writtenSlots (events.filter fun event => event.IsWrite) := by
  rw [writtenSlots, writtenSlots, List.filterMap_filter]
  congr 1
  funext event
  cases event <;> rfl

/-- The connections of different full slots differ. -/
theorem EndsInv.connectionOf_inj {p : Processes} (h : EndsInv p.toHoldings p.server.table)
    {i j : Fin maxUser} (hi : p.server.table.Full i) (hj : p.server.table.Full j)
    (heq : p.connectionOf i = p.connectionOf j) : i = j := by
  by_contra hne
  exact (h.table.apart i j hi hj hne).pid
    (h.distinct _ (h.table.full i hi).child _ (h.table.full j hj).child heq)

/-- What is written to a full slot goes to the child of its connection. -/
theorem EndsInv.toChild_eq {p : Processes} (h : EndsInv p.toHoldings p.server.table) {i : Fin maxUser}
    (hi : p.server.table.Full i) :
    p.toChild (p.server.table.users i).fdToUser = some (p.connectionOf i) := by
  rw [Processes.toChild, h.toUser i hi]
  rfl

/-- A posting to slots goes once to each of their connections. -/
theorem EndsInv.writtenTo_writes {p : Processes} (h : EndsInv p.toHoldings p.server.table)
    {slots : List (Fin maxUser)} (hnodup : slots.Nodup) (hfull : ∀ i ∈ slots, p.server.table.Full i)
    (text : CString) (k : ℕ) :
    p.writtenTo k (writes p.server.table text slots) = if k ∈ slots.map p.connectionOf then [text]
    else [] := by
  have hmap : p.writtenTo k (writes p.server.table text slots) =
      (slots.filter fun i => p.connectionOf i = k).map fun _ => text := by
    rw [Processes.writtenTo, writes, List.filterMap_map]
    clear hnodup
    induction slots with
    | nil => rfl
    | cons i slots ih =>
      rw [List.forall_mem_cons] at hfull
      have hfirst := h.toChild_eq hfull.1
      by_cases heq : p.connectionOf i = k
      · rw [List.filterMap_cons_some (b := text) (by simp [hfirst, heq]),
          List.filter_cons_of_pos (by simpa using heq), ih hfull.2, List.map_cons]
      · rw [List.filterMap_cons_none (by simp [hfirst, heq]),
          List.filter_cons_of_neg (by simpa using heq), ih hfull.2]
  have hkeys : (slots.map p.connectionOf).Nodup :=
    (List.nodup_map_iff_inj_on hnodup).mpr fun i hi j hj heq => h.connectionOf_inj (hfull i hi)
      (hfull j hj) heq
  rw [hmap]
  split
  · rename_i hmem
    obtain ⟨i, hi, rfl⟩ := List.mem_map.mp hmem
    rw [filter_eq_singleton hkeys hi, List.map_singleton]
  · rename_i hnot
    rw [List.filter_eq_nil_iff.mpr, List.map_nil]
    intro i hi heq
    exact hnot (List.mem_map.mpr ⟨i, hi, of_decide_eq_true heq⟩)

/-- Nothing but a write of the server is sent to the user. -/
theorem sentToUser_of_relayNext {t t' : Traffic} {label : RelayLabel} (h : relayNext t label = some t')
    (hlabel : ∀ data, label ≠ .serverWrite data) : t'.sentToUser = t.sentToUser := by
  cases label with
  | serverWrite data => exact absurd rfl (hlabel data)
  | userClose => exact Option.some.inj h ▸ rfl
  | child n =>
    obtain ⟨relay, -, rfl⟩ := Option.map_eq_some_iff.mp h
    rfl
  | userWrite data | userRead n | serverRead n =>
    simp only [relayNext] at h
    split at h
    · exact Option.some.inj h ▸ rfl
    · exact absurd h (by simp)

/-- A write of the server is a step of the relay. -/
theorem relayNext_deliver {t : Traffic} {data : CString} (h : data.length ≤ maxMsg + maxUserId) :
    relayNext t (.serverWrite data) = some (t.deliver data) := if_pos h

/-- The calls of the server for admissible connections and removals succeed, and what a child relays
fits. -/
def NetworkLabel.Sound (s : Network) : NetworkLabel → Prop
  | .server label => CallsSucceed s.processes.server label
  | .child pid n => RelayedFits (s.traffic (s.processes.childOf pid)) (.child n)
  | _ => True

/-- The texts which a connection was sent, in the order in which the server wrote them. -/
def Network.textsFor (s : Network) (k : ℕ) : List CString :=
  (s.posts.filter fun post => k ∈ post.accepted.map Prod.snd).map Post.text

/-- Everything which was sent to a user is one of the posted texts for it. Between the ends nothing is
lost. -/
structure NetworkInv (s : Network) : Prop where
  processes : ProcessInv s.processes
  relay : ∀ k, RelayInv (s.traffic k) ∧ Conserved (s.traffic k)
  stream : ∀ k, (s.traffic k).sentToUser = (s.textsFor k).flatten
  posts : ∀ post ∈ s.posts, post.receivers.Pairwise (·.1 < ·.1) ∧ post.accepted <+: post.receivers

/-- In the beginning nothing is in the pipes. -/
theorem networkInv_init (h : NetworkInit s) : NetworkInv s := by
  obtain ⟨hprocesses, htraffic, hposts⟩ := h
  refine ⟨processInv_init hprocesses, fun k => relay_init (htraffic k), fun k => ?_, by simp [hposts]⟩
  obtain ⟨-, -, -, -, -, -, hsent, -⟩ := htraffic k
  rw [hsent, Network.textsFor, hposts]
  rfl

/-- A step of one relay other than a write of the server loses nothing, if what the child relays fits,
and sends nothing to any user. -/
theorem relay_update {traffic : ℕ → Traffic} (h : ∀ k, RelayInv (traffic k) ∧ Conserved (traffic k))
    {k : ℕ} {t : Traffic} {label : RelayLabel} (hnext : relayNext (traffic k) label = some t)
    (hfits : RelayedFits (traffic k) label) (hlabel : ∀ data, label ≠ .serverWrite data) (j : ℕ) :
    (RelayInv (Function.update traffic k t j) ∧ Conserved (Function.update traffic k t j)) ∧
      (Function.update traffic k t j).sentToUser = (traffic j).sentToUser := by
  by_cases hj : j = k
  · subst hj
    rw [Function.update_self]
    obtain ⟨hinv, hconserved⟩ := h j
    exact ⟨⟨relayInv_step hinv hnext, (conserved_step_iff hinv hconserved hnext).mpr hfits⟩,
      sentToUser_of_relayNext hnext hlabel⟩
  · rw [Function.update_of_ne hj]
    exact ⟨h j, rfl⟩

/-- Such a step keeps the invariant, whatever the processes become. -/
theorem NetworkInv.update (h : NetworkInv s) {p : Processes} (hp : ProcessInv p) {k : ℕ} {t : Traffic}
    {label : RelayLabel} (hnext : relayNext (s.traffic k) label = some t)
    (hfits : RelayedFits (s.traffic k) label) (hlabel : ∀ data, label ≠ .serverWrite data) :
    NetworkInv { s with processes := p, traffic := Function.update s.traffic k t } where
  processes := hp
  relay j := (relay_update h.relay hnext hfits hlabel j).1
  stream j := (relay_update h.relay hnext hfits hlabel j).2.trans (h.stream j)
  posts := h.posts

/-- A step of the server reads nothing, or from the pipe of one connection. -/
theorem read_cases {label : ServerLabel} {traffic : ℕ → Traffic} (hread : s.read label = some traffic) :
    traffic = s.traffic ∨ ∃ j n t, relayNext (s.traffic j) (.serverRead n) = some t ∧
      traffic = Function.update s.traffic j t := by
  unfold Network.read at hread
  split at hread
  · split at hread
    · split at hread
      · obtain ⟨j, -, hread⟩ := Option.bind_eq_some_iff.mp hread
        simp only at hread
        split at hread
        · split at hread
          · exact Or.inl (Option.some.inj hread).symm
          · exact absurd hread (by simp)
        · split at hread
          · obtain ⟨t, hnext, rfl⟩ := Option.map_eq_some_iff.mp hread
            exact Or.inr ⟨j, _, t, hnext, rfl⟩
          · exact absurd hread (by simp)
      · exact Or.inl (Option.some.inj hread).symm
    · exact Or.inl (Option.some.inj hread).symm
  · exact Or.inl (Option.some.inj hread).symm

/-- What the server reads in a step is read from one pipe, and nothing is sent with it. -/
theorem read_relay (h : ∀ k, RelayInv (s.traffic k) ∧ Conserved (s.traffic k)) {label : ServerLabel}
    {traffic : ℕ → Traffic} (hread : s.read label = some traffic) (k : ℕ) :
    (RelayInv (traffic k) ∧ Conserved (traffic k)) ∧ (traffic k).sentToUser = (s.traffic k).sentToUser ∧
      (traffic k).relay.serverWritingToChild = (s.traffic k).relay.serverWritingToChild := by
  obtain rfl | ⟨j, n, t, hnext, rfl⟩ := read_cases hread
  · exact ⟨h k, rfl, rfl⟩
  · obtain ⟨hrelay, hsent⟩ := relay_update h hnext trivial (by simp) k
    refine ⟨hrelay, hsent, ?_⟩
    by_cases hk : k = j
    · subst hk
      rw [Function.update_self]
      simp only [relayNext] at hnext
      split at hnext
      · exact Option.some.inj hnext ▸ rfl
      · exact absurd hnext (by simp)
    · rw [Function.update_of_ne hk]

/-- The post of a step: the text which was written, the connections it was meant for, and those of the
slots for which the write succeeded. -/
theorem post_eq {label : ServerLabel} {events : List Event} {text : CString}
    {slots : List (Fin maxUser)}
    (hwrites : events.filter (fun event => event.IsWrite) = writes s.processes.server.table text slots) :
    s.post label events = if slots = [] then [] else
      [⟨text, (intended s.processes.server.table slots
        (broadcastOf s.processes.server label)).map s.processes.seat,
        (slots.filter fun i => (label.outcomes i).write).map s.processes.seat⟩] := by
  have htexts : events.filterMap Event.text = slots.map fun _ => text := by
    rw [text_filter, hwrites, writes, List.filterMap_map]
    exact congrFun List.filterMap_eq_map slots
  have hslots : writtenSlots events = slots := by rw [writtenSlots_filter, hwrites, writtenSlots_writes]
  rw [Network.post, htexts, hslots]
  cases slots with
  | nil => rfl
  | cons i slots => rfl

/-- A step of the server keeps the invariant. The post of the step goes to the connections whose pipe had
room, once to each. -/
theorem networkInv_server (h : NetworkInv s) {label : ServerLabel}
    (hsucceed : CallsSucceed s.processes.server label)
    (hstep : networkNext s (.server label) = some s') : NetworkInv s' := by
  obtain ⟨p, hprocess, hstep⟩ := Option.bind_eq_some_iff.mp hstep
  obtain ⟨traffic, hread, hstep⟩ := Option.bind_eq_some_iff.mp hstep
  have hrelay := read_relay h.relay hread
  obtain ⟨text, slots, ⟨⟨new, hevents, hwrites⟩, hsorted, hfull, hshort, hreached⟩⟩ :=
    serverNext_posting (serverNext_of_processNext hprocess)
  simp only [hevents, List.drop_left] at hstep
  split at hstep
  · rename_i hagrees
    obtain rfl := Option.some.inj hstep
    have hends := h.processes.ends
    have hpost := @post_eq s label new text slots hwrites
    have hwritten (k : ℕ) : s.processes.writtenTo k new =
        if k ∈ slots.map s.processes.connectionOf then [text] else [] := by
      rw [Processes.writtenTo_filter, hwrites, hends.writtenTo_writes (hsorted.imp ne_of_lt) hfull]
    have hfits (i : Fin maxUser) (hi : i ∈ slots) : (label.outcomes i).write = true ↔
        (s.traffic (s.processes.connectionOf i)).relay.serverWritingToChild.Fits text := by
      have hmem : .wrote i (s.processes.server.table.users i).fdToUser text ∈ new := by
        refine List.mem_of_mem_filter (p := fun event => event.IsWrite) ?_
        rw [hwrites]
        exact List.mem_map.mpr ⟨i, hi, rfl⟩
      exact hagrees _ hmem _ (hends.toChild_eq (hfull i hi))
    have hseats (l : List (Fin maxUser)) :
        (l.map s.processes.seat).map Prod.snd = l.map s.processes.connectionOf := by
      rw [List.map_map]
      rfl
    have haccepted (i : Fin maxUser) (hi : i ∈ slots) :
        s.processes.connectionOf i ∈
        (slots.filter fun i => (label.outcomes i).write).map s.processes.connectionOf ↔
          (label.outcomes i).write = true := by
      constructor
      · intro hmem
        obtain ⟨j, hj, heq⟩ := List.mem_map.mp hmem
        obtain ⟨hj, hwrite⟩ := List.mem_filter.mp hj
        exact hends.connectionOf_inj (hfull j hj) (hfull i hi) heq ▸ hwrite
      · exact fun hwrite => List.mem_map.mpr ⟨i, List.mem_filter.mpr ⟨hi, hwrite⟩, rfl⟩
    have hp : ProcessInv p := @processInv_step _ _ (.server label) h.processes hsucceed hprocess
    refine ⟨hp, fun k => ?_, fun k => ?_, fun post hmem => ?_⟩
    · simp only [hwritten]
      split
      · obtain ⟨hinv, hconserved⟩ := (hrelay k).1
        have hnext := relayNext_deliver (t := traffic k) hshort
        exact ⟨relayInv_step hinv hnext, (conserved_step_iff hinv hconserved hnext).mpr trivial⟩
      · exact (hrelay k).1
    · simp only [hwritten, Network.textsFor, List.filter_append, List.map_append, List.flatten_append,
        hpost]
      by_cases hk : k ∈ slots.map s.processes.connectionOf
      · obtain ⟨i, hi, rfl⟩ := List.mem_map.mp hk
        obtain ⟨hsent, hpipe⟩ := (hrelay (s.processes.connectionOf i)).2
        rw [if_pos hk, if_neg (List.ne_nil_of_mem hi), List.foldl_cons, List.foldl_nil,
          Traffic.deliver_sentToUser, hsent, hpipe, h.stream, Pipe.accepted, Network.textsFor]
        congr 1
        by_cases hwrite : (label.outcomes i).write = true
        · rw [if_pos ((hfits i hi).mp hwrite), List.filter_cons_of_pos
            (by simpa only [hseats, decide_eq_true_eq] using (haccepted i hi).mpr hwrite)]
          exact (List.append_nil text).symm
        · rw [if_neg fun hroom => hwrite ((hfits i hi).mpr hroom),
            List.filter_cons_of_neg (by
              simpa only [hseats, decide_eq_true_eq] using fun hmem =>
                hwrite ((haccepted i hi).mp hmem))]
          rfl
      · have hnot : k ∉ (slots.filter fun i => (label.outcomes i).write).map s.processes.connectionOf :=
          fun hmem => hk (List.map_subset _ (List.filter_subset_self _) hmem)
        rw [if_neg hk, List.foldl_nil, (hrelay k).2.1, h.stream, Network.textsFor]
        by_cases hslots : slots = []
        · rw [if_pos hslots]
          exact (List.append_nil _).symm
        · rw [if_neg hslots,
            List.filter_cons_of_neg (by simpa only [hseats, decide_eq_true_eq] using hnot)]
          exact (List.append_nil _).symm
    · rcases List.mem_append.mp hmem with hold | hnew
      · exact h.posts post hold
      · rw [hpost] at hnew
        split at hnew
        · exact absurd hnew List.not_mem_nil
        · obtain rfl := List.mem_singleton.mp hnew
          exact ⟨(intended_pairwise hsorted _).map _ fun _ _ hlt => hlt, hreached.map _⟩
  · exact absurd hstep (by simp)

/-- Every step keeps the invariant, as long as the calls succeed and what a child relays fits. -/
theorem networkInv_step (h : NetworkInv s) {label : NetworkLabel} (hsound : label.Sound s)
    (hstep : networkNext s label = some s') : NetworkInv s' := by
  cases label with
  | server label => exact networkInv_server h hsound hstep
  | child pid n =>
    simp only [networkNext] at hstep
    split at hstep
    · obtain ⟨t, hnext, rfl⟩ := Option.map_eq_some_iff.mp hstep
      exact h.update h.processes hnext hsound (by simp)
    · exact absurd hstep (by simp)
  | write k data | display k n =>
    simp only [networkNext] at hstep
    split at hstep
    · obtain ⟨t, hnext, rfl⟩ := Option.map_eq_some_iff.mp hstep
      exact h.update h.processes hnext trivial (by simp)
    · exact absurd hstep (by simp)
  | settle k =>
    simp only [networkNext] at hstep
    obtain ⟨p, hprocess, rfl⟩ := Option.map_eq_some_iff.mp hstep
    have hsound : ProcessLabel.Succeeds s.processes (.settle k) := trivial
    exact ⟨processInv_step h.processes hsound hprocess, h.relay, h.stream, h.posts⟩
  | quit k =>
    simp only [networkNext] at hstep
    split at hstep
    · obtain ⟨p, hprocess, hstep⟩ := Option.bind_eq_some_iff.mp hstep
      obtain ⟨t, hnext, rfl⟩ := Option.map_eq_some_iff.mp hstep
      exact h.update (processInv_step h.processes
        (show ProcessLabel.Succeeds _ (.quit k) from trivial) hprocess) hnext
        trivial (by simp)
    · exact absurd hstep (by simp)

/-- The network, as long as the calls succeed and what a child relays fits. -/
def soundNetwork : TransitionSystem Network NetworkLabel := networkSystem.restrict NetworkLabel.Sound

/-- What a user has read is a first part of the texts posted to its connection, one after the other. If
a text reached a user, it reached those in lower slots whom it was meant for. And what the server has
read from a connection is a first part of what its user sent, with the exit notices of its child behind
it. -/
structure Delivers (s : Network) : Prop where
  toUser : ∀ k, (s.traffic k).readByUser <+: (s.textsFor k).flatten
  agree : ∀ post ∈ s.posts, post.accepted ⊆ post.receivers ∧
    ∀ seat ∈ post.receivers, ∀ seat' ∈ post.accepted, seat.1 < seat'.1 → seat ∈ post.accepted
  toServer : ∀ k, (s.traffic k).readByServer <+: (s.traffic k).sentToServer

/-- In any order of the steps of the server, the children and the users, every user sees the texts of
the server in the one order in which they were written, and of two users whom a broadcast is meant for
the one in the lower slot is sent it if the other one is. -/
theorem network_delivers (h : soundNetwork.Reachable s) : Delivers s := by
  have hstep (s : Network) (label : NetworkLabel) (s' : Network) (hinv : NetworkInv s)
      (hnext : soundNetwork.step s label s') : NetworkInv s' := networkInv_step hinv hnext.1 hnext.2
  obtain ⟨-, hrelay, hstream, hposts⟩ := h.invariant (fun s hinit => networkInv_init hinit) hstep
  refine ⟨fun k => ?_, fun post hpost => ?_, fun k => (hrelay k).2.reads.1⟩
  · rw [← hstream]
    exact (hrelay k).2.reads.2
  · obtain ⟨hsorted, rest, hrest⟩ := hposts post hpost
    rw [← hrest] at hsorted ⊢
    refine ⟨List.subset_append_left _ _, fun seat hseat seat' hseat' hlt => ?_⟩
    rcases List.mem_append.mp hseat with haccepted | hlater
    · exact haccepted
    · exact absurd hlt (lt_asymm ((List.pairwise_append.mp hsorted).2.2 seat' hseat' seat hlater))

/-- The connection which a step accepts. -/
def ServerLabel.connection : ServerLabel → Option Connection
  | .accept outcome => outcome
  | _ => none

/-- The calls of a step succeed whatever the server does with it, and what a child relays fits. -/
def NetworkLabel.AllSucceed (s : Network) : NetworkLabel → Prop
  | .server label => (∀ c ∈ label.connection, c.Succeeds) ∧ ∀ i, (label.outcomes i).Closes
  | .child pid n => RelayedFits (s.traffic (s.processes.childOf pid)) (.child n)
  | _ => True

instance (c : Connection) : Decidable c.Succeeds := inferInstanceAs (Decidable (_ ∧ _ ∧ _))

instance (s : Network) : (label : NetworkLabel) → Decidable (label.AllSucceed s)
  | .server _ => inferInstanceAs (Decidable (_ ∧ _))
  | .child pid n =>
    inferInstanceAs (Decidable (RelayedFits (s.traffic (s.processes.childOf pid)) (.child n)))
  | .write _ _ => isTrue trivial
  | .display _ _ => isTrue trivial
  | .settle _ => isTrue trivial
  | .quit _ => isTrue trivial

/-- Then those which matter succeed. -/
theorem NetworkLabel.AllSucceed.sound {label : NetworkLabel} (h : label.AllSucceed s) :
    label.Sound s := by
  cases label with
  | server label =>
    refine ⟨fun c idx heq _ => h.1 c ?_, fun i _ => h.2 i⟩
    rw [heq]
    rfl
  | child pid n => exact h
  | write k data | display k n | settle k | quit k => exact trivial

/-- The processes which were just started, with pipes of 512 bytes to come. -/
def freshNetwork : Network := ⟨freshProcesses, fun _ => freshTraffic 512, []⟩

/-- What is executed from there with calls that succeed is reachable. -/
theorem soundNetwork_reachable_of_exec {labels : List NetworkLabel} {s : Network}
    (h : exec (fun s label => if NetworkLabel.AllSucceed s label then networkNext s label else none)
      freshNetwork labels = some s) : soundNetwork.Reachable s := by
  have hinit : NetworkInit freshNetwork :=
    ⟨⟨freshServer_init, fun _ => rfl, rfl, fun _ => rfl⟩, fun _ => freshTraffic_init 512, rfl⟩
  have hguard (s : Network) (label : NetworkLabel) (t : Network) (_ : True) (h : label.AllSucceed s)
      (_ : networkSystem.step s label t) : label.Sound s ∧ True := ⟨h.sound, trivial⟩
  exact ⟨freshNetwork, labels, hinit, (Run.change_guard hguard trivial (Run.of_exec_guarded h)).1⟩

/-- Two users are admitted. The second one says something, which its child relays to the server and the
server to the first one, who reads a part of it. -/
def greetFirst : List NetworkLabel :=
  [.server (.accept (some (annConnection (some ⟨7, 9⟩) (some 100)))), .settle 0,
    .server (.admin none allSucceed)] ++
  List.replicate maxUser (.server (.poll none allSucceed)) ++
  [.server .sleep, .server (.accept (some bobConnection)), .settle 1, .write 1 (bytes "hi"),
    .child 101 2, .child 101 0, .server (.admin none allSucceed), .server (.poll none allSucceed),
    .server (.poll (some ⟨bytes "hi", by decide⟩) allSucceed), .child 100 0, .child 100 7, .child 100 0,
      .display 0 5]

/-- The network then. -/
def greetedNetwork : Network :=
  (exec (fun s label => if label.AllSucceed s then networkNext s label
    else none) freshNetwork greetFirst).getD freshNetwork

/-- What the first user has read is the beginning of what the second one said. -/
theorem network_delivers_greeting : soundNetwork.Reachable greetedNetwork ∧
    greetedNetwork.textsFor 0 = [bytes "bob: hi"] ∧
    (greetedNetwork.traffic 0).readByUser = bytes "bob: " ∧
    (greetedNetwork.traffic 0).readByUser <+: bytes "bob: hi" := by
  have hreachable : soundNetwork.Reachable greetedNetwork :=
    soundNetwork_reachable_of_exec (exec_getD (by decide +kernel))
  have htexts : greetedNetwork.textsFor 0 = [bytes "bob: hi"] := by decide +kernel
  have hread := (network_delivers hreachable).toUser 0
  rw [htexts] at hread
  exact ⟨hreachable, htexts, by decide +kernel, by simpa using hread⟩

end Csci4061.Chat
