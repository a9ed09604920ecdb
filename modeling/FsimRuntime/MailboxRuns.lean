import FsimRuntime.EventRuns
import FsimRuntime.SynchronizationQueues

/-!
# Runs of a mailbox

A run's ledger lists the posted messages in the order of their puts. At every
moment it is what was received, what is queued and what the live blocked
putters hold, in this order; readers wait only at an empty mailbox and putters
only at a full one. A get or peek that returns has a message in its register,
and the history says which.
-/

namespace FsimRuntime.Synchronization
open EventRuns List MailboxEvent

/-- A message of a put that was not refused. -/
inductive Posted
  | accepted (message : Message)
  | blocked (process : ProcessId) (message : Message)
  deriving DecidableEq, Repr

def Posted.admitted (process : ProcessId) : Posted → Posted
  | .accepted message => .accepted message
  | .blocked other message => if other = process then .accepted message else .blocked other message

def Posted.heldBy (process : ProcessId) : Posted → Bool
  | .accepted _ => false
  | .blocked other _ => other = process

/-- A blocked put takes its place in the ledger at once; a kill takes it away again. -/
def recordEvent (ledger : List Posted) : MailboxEvent → List Posted
  | .accepted _ message => ledger ++ [.accepted message]
  | .blockedPut process message => ledger ++ [.blocked process message]
  | .admitted process _ => ledger.map (.admitted process)
  | .killed process => ledger.filter (!·.heldBy process)
  | _ => ledger

def postings (history : List MailboxEvent) : List Posted := history.foldl recordEvent []

def MailboxEvent.receivedMessage : MailboxEvent → Option Message
  | .received _ _ message => some message
  | _ => none

def received (history : List MailboxEvent) : List Message :=
  history.filterMap MailboxEvent.receivedMessage

/-- A peek saw the first of the messages that were received later or are still queued. -/
def PeeksSeeNext (history : List MailboxEvent) (entries : List Message) : Prop :=
  ∀ before process destination message after,
    history = before ++ .peeked process destination message :: after →
    (received after ++ entries).head? = some message

theorem postings_append (history events : List MailboxEvent) :
    postings (history ++ events) = events.foldl recordEvent (postings history) := by
  simp [postings]

@[simp] theorem received_append (history events : List MailboxEvent) :
    received (history ++ events) = received history ++ received events := by
  simp [received]

@[simp] theorem received_nil : received [] = [] := rfl

@[simp] theorem received_cons (e : MailboxEvent) (history : List MailboxEvent) :
    received (e :: history) = e.receivedMessage.toList ++ received history := by
  cases e <;> rfl

variable {history events : List MailboxEvent} {entries : List Message}
  {elementKind : MailboxElementKind} {elementWidth requested : ℕ} {mailbox : MailboxState}

theorem PeeksSeeNext.append {later : List Message} (new : List Message)
    (h : PeeksSeeNext history entries) (hlater : PeeksSeeNext events later)
    (hconserved : received events ++ later = entries ++ new) :
    PeeksSeeNext (history ++ events) later := by
  intro before process destination message after hsplit
  rcases append_eq_append_iff.mp hsplit with ⟨front, rfl, hrest⟩ | ⟨back, hhistory, hrest⟩
  · exact hlater front process destination message after hrest
  · cases back with
    | nil => exact hlater [] process destination message after (by simpa using hrest.symm)
    | cons event back =>
      rw [cons_append] at hrest
      obtain ⟨rfl, rfl⟩ := cons.inj hrest
      have hold := h before process destination message back hhistory
      rw [received_append, append_assoc, hconserved, ← append_assoc, head?_append, hold]
      rfl

theorem peeksSeeNext_of_none (h : ∀ event ∈ events, ∀ process destination message,
      event ≠ .peeked process destination message) : PeeksSeeNext events entries := by
  intro before process destination message after hsplit
  exact absurd rfl (h _ (by simp [hsplit]) process destination message)

theorem peeksSeeNext_peeked {process : ProcessId} {destination : RegisterId} {message : Message}
    (h : entries.head? = some message) :
    PeeksSeeNext [.peeked process destination message] entries := by
  intro before other register seen after hsplit
  cases before with
  | nil =>
    obtain ⟨hpeek, rfl⟩ := cons.inj hsplit
    obtain ⟨-, -, rfl⟩ := peeked.inj hpeek
    exact h
  | cons _ _ => simp at hsplit

@[simp] theorem answer_inj {reader other : MailboxReader} {message message' : Message} :
    reader.answer message = other.answer message' ↔ reader = other ∧ message = message' := by
  obtain ⟨process, destination, peek⟩ := reader
  obtain ⟨process', destination', peek'⟩ := other
  cases peek <;> cases peek' <;> simp [MailboxReader.answer, and_assoc]

theorem Active.wake {processes : Processes} {id : ProcessId} (h : Active processes id)
    (woken : ProcessId) : Active (synchronizationWake processes woken) id := by
  refine ⟨(halted_wake _ _ _).trans h.1, ?_⟩
  unfold synchronizationWake
  split
  · exact h.2
  · by_cases hid : id = woken
    · simp [hid]
    · simpa [hid] using h.2

section Loops

variable {processes : Processes} {registers : Registers} {message : Message}

theorem deliver_registers_of_notMem {id : ProcessId} (readers : List MailboxReader)
    (processes : Processes) (registers : Registers) (h : id ∉ readers.map (·.process)) :
    (deliver message readers processes registers).registers id = registers id := by
  induction readers generalizing processes registers with
  | nil => rfl
  | cons reader readers ih =>
    obtain ⟨hne, hrest⟩ : id ≠ reader.process ∧ id ∉ readers.map (·.process) := by
      simpa using h
    have hframe : synchronizationDeliver processes registers reader.process reader.destination
        message id = registers id := by
      unfold synchronizationDeliver writeRegister
      split
      · rfl
      · exact Function.update_of_ne hne _ _
    unfold deliver
    split_ifs
    · exact (ih _ _ hrest).trans hframe
    · exact (ih _ _ hrest).trans hframe
    · exact hframe

structure Delivered (message : Message) (readers : List MailboxReader) (processes : Processes)
    (writers : List ProcessId) (delivery : Delivery) : Prop where
  queued : Queued delivery.processes (delivery.readers.map (·.process) ++ writers)
  halted : ∀ p, (delivery.processes p).halted = (processes p).halted
  active : ∀ p, Active processes p → Active delivery.processes p
  drained : delivery.consumed = false → delivery.readers = []
  received : received delivery.events = if delivery.consumed then [message] else []
  unposted : ∀ ledger, delivery.events.foldl recordEvent ledger = ledger
  peeks : PeeksSeeNext delivery.events (if delivery.consumed then [] else [message])
  answered : ∀ reader ∈ readers, (processes reader.process).halted = false →
    reader ∈ delivery.readers ∨ reader.answer message ∈ delivery.events ∧
      delivery.registers reader.process reader.destination = some message
  answers : ∀ event ∈ delivery.events, ∃ reader ∈ readers,
    (processes reader.process).halted = false ∧ event = reader.answer message

theorem deliver_spec (message : Message) {writers : List ProcessId} (readers : List MailboxReader)
    (processes : Processes) (registers : Registers)
    (h : Queued processes (readers.map (·.process) ++ writers)) :
    Delivered message readers processes writers (deliver message readers processes registers) := by
  induction readers generalizing processes registers with
  | nil =>
    exact ⟨h, fun _ => rfl, fun _ => id, fun _ => rfl, rfl, fun _ => rfl,
      peeksSeeNext_of_none (by simp [deliver]), by simp, by simp [deliver]⟩
  | cons reader readers ih =>
    by_cases hhalted : (processes reader.process).halted
    · have hrest := ih processes registers (h.discard hhalted (List.Perm.refl _))
      simp only [deliver, synchronizationDeliver, synchronizationHalted, hhalted, if_true]
      refine { hrest with answered := ?_, answers := fun event hevent => ?_ }
      · rintro other (_ | ⟨_, hother⟩) hlive
        · simp [hhalted] at hlive
        · exact hrest.answered other hother hlive
      · obtain ⟨other, hother, hlive, rfl⟩ := hrest.answers event hevent
        exact ⟨other, mem_cons_of_mem _ hother, hlive, rfl⟩
    · have hlive := eq_false_of_ne_true hhalted
      have hwoken := h.wake hlive (List.Perm.refl _)
      have hself : writeRegister registers reader.process reader.destination message
          reader.process reader.destination = some message := by simp [writeRegister]
      cases hpeek : reader.peek with
      | true =>
        have hrest := ih _ (writeRegister registers reader.process reader.destination message)
          hwoken
        have hanswer : reader.answer message =
            .peeked reader.process reader.destination message := by
          simp [MailboxReader.answer, hpeek]
        have hnotMem : reader.process ∉ readers.map (·.process) :=
          fun hmem => (nodup_cons.mp h.nodup).1 (mem_append_left _ hmem)
        simp only [deliver, synchronizationDeliver, synchronizationHalted, hlive, hpeek,
          Bool.false_eq_true, if_false, if_true]
        refine {
          queued := hrest.queued
          halted := fun p => (hrest.halted p).trans (halted_wake _ _ _)
          active := fun p hactive => hrest.active p (hactive.wake _)
          drained := hrest.drained
          received := by simpa [hanswer, receivedMessage] using hrest.received
          unposted := fun ledger => by simpa [hanswer, recordEvent] using hrest.unposted ledger
          peeks := ?_
          answered := ?_
          answers := ?_ }
        · rw [hanswer]
          have hfirst : PeeksSeeNext [.peeked reader.process reader.destination message]
              [message] := peeksSeeNext_peeked rfl
          refine hfirst.append [] hrest.peeks ?_
          rw [hrest.received]
          split_ifs <;> rfl
        · rintro other (_ | ⟨_, hother⟩) hlive
          · refine .inr ⟨mem_cons_self, ?_⟩
            rw [deliver_registers_of_notMem _ _ _ hnotMem]
            exact hself
          · rcases hrest.answered other hother (by simpa using hlive) with hkept | ⟨hev, hreg⟩
            · exact .inl hkept
            · exact .inr ⟨mem_cons_of_mem _ hev, hreg⟩
        · rintro event (_ | ⟨_, hevent⟩)
          · exact ⟨reader, mem_cons_self, hlive, rfl⟩
          · obtain ⟨other, hother, hlive, rfl⟩ := hrest.answers event hevent
            exact ⟨other, mem_cons_of_mem _ hother, by simpa using hlive, rfl⟩
      | false =>
        have hanswer : reader.answer message =
            .received reader.process reader.destination message := by
          simp [MailboxReader.answer, hpeek]
        simp only [deliver, synchronizationDeliver, synchronizationHalted, hlive, hpeek]
        refine ⟨hwoken, halted_wake _ _, fun _ hactive => hactive.wake _, by simp,
          by simp [hanswer, receivedMessage],
          fun _ => by simp [hanswer, recordEvent],
          peeksSeeNext_of_none (by simp [hanswer]), ?_, ?_⟩
        · rintro other (_ | ⟨_, hother⟩) -
          · exact .inr ⟨mem_singleton_self _, hself⟩
          · exact .inl hother
        · rintro event (_ | ⟨_, ⟨⟩⟩)
          exact ⟨reader, mem_cons_self, hlive, rfl⟩

theorem admitWriter_cases (mailbox : MailboxState) {readers : List ProcessId}
    (writers : List MailboxWriter) (processes : Processes)
    (h : Queued processes (readers ++ writers.map (·.process))) :
    (admitWriter mailbox writers processes = ⟨{ mailbox with writers := [] }, processes, []⟩ ∧
        alive (·.process) processes writers = [] ∧ Queued processes readers) ∨
      ∃ writer rest, (processes writer.process).halted = false ∧
        admitWriter mailbox writers processes =
          ⟨{ mailbox with
              entries := mailbox.entries ++ [writer.value]
              stringBytes := mailbox.stringBytes + writer.value.bytes
              writers := rest }, synchronizationWake processes writer.process,
            [.admitted writer.process writer.value]⟩ ∧
        alive (·.process) processes writers = writer :: alive (·.process) processes rest ∧
        Queued processes (readers ++ (writer :: rest).map (·.process)) := by
  induction writers with
  | nil => exact .inl ⟨rfl, rfl, by simpa using h⟩
  | cons writer writers ih =>
    by_cases hhalted : (processes writer.process).halted
    · simpa [admitWriter, synchronizationHalted, hhalted, alive_cons_dead hhalted] using
        ih (h.discard hhalted perm_middle)
    · have hlive := eq_false_of_ne_true hhalted
      refine .inr ⟨writer, writers, hlive, ?_, alive_cons_live hlive, h⟩
      simp [admitWriter, synchronizationHalted, hlive]

end Loops

section Steps

structure Kept (bound : ℕ) (history : List MailboxEvent) (world : MailboxWorld) : Prop where
  capacity : world.mailbox.capacity = bound
  ledger : postings history = (received history ++ world.mailbox.entries).map .accepted ++
    (alive (·.process) world.processes world.mailbox.writers).map fun writer =>
      .blocked writer.process writer.value
  bounded : world.mailbox.entries.length ≤ bound
  readers_idle : world.mailbox.readers ≠ [] → world.mailbox.entries = []
  writers_full : world.mailbox.writers ≠ [] → world.mailbox.entries.length = bound
  queued : Queued world.processes
    (world.mailbox.readers.map (·.process) ++ world.mailbox.writers.map (·.process))
  peeks : PeeksSeeNext history world.mailbox.entries

variable {bound : ℕ} {history : List MailboxEvent} {world : MailboxWorld}

section
variable (h : Kept bound history world)
include h

theorem Kept.idle {event : MailboxEvent} {registers : Registers}
    (hunposted : ∀ ledger, recordEvent ledger event = ledger)
    (hunreceived : event.receivedMessage = none)
    (hpeeks : PeeksSeeNext [event] world.mailbox.entries) :
    Kept bound (history ++ [event]) { world with registers } := by
  refine { h with ledger := ?_, peeks := h.peeks.append [] hpeeks (by simp [hunreceived]) }
  rw [postings_append, foldl_cons, hunposted, h.ledger]
  simp [hunreceived]

theorem Kept.readers_nil (hentries : world.mailbox.entries ≠ []) :
    world.mailbox.readers = [] := by
  by_contra hreaders
  exact hentries (h.readers_idle hreaders)

theorem Kept.reader_waits {reader : MailboxReader} (hreader : reader ∈ world.mailbox.readers) :
    ¬ Active world.processes reader.process := fun hactive =>
  h.queued.not_mem hactive (mem_append_left _ (mem_map_of_mem hreader))

theorem Kept.writer_waits {writer : MailboxWriter} (hwriter : writer ∈ world.mailbox.writers) :
    ¬ Active world.processes writer.process := fun hactive =>
  h.queued.not_mem hactive (mem_append_right _ (mem_map_of_mem hwriter))

theorem Kept.delivered (process : ProcessId) (message : Message) (bytes : ℕ) (hbound : 0 < bound)
    (hwriters : world.mailbox.writers = [])
    (hroom : world.mailbox.readers ≠ [] ∨ world.mailbox.entries.length < bound) :
    let delivery := deliver message world.mailbox.readers world.processes world.registers
    Kept bound (history ++ .accepted process message :: delivery.events)
      ⟨if delivery.consumed then { world.mailbox with readers := delivery.readers }
        else { world.mailbox with
          readers := delivery.readers
          entries := world.mailbox.entries ++ [message]
          stringBytes := bytes }, delivery.processes, delivery.registers⟩ := by
  intro delivery
  have hd : Delivered message world.mailbox.readers world.processes [] delivery :=
    deliver_spec message _ _ _ (by simpa [hwriters] using h.queued)
  have hempty : delivery.events = [] ∧ delivery.consumed = false ∨
      world.mailbox.entries = [] := by
    by_cases hentries : world.mailbox.entries = []
    · exact .inr hentries
    · simp [delivery, h.readers_nil hentries, deliver]
  have hpostings : postings (history ++ .accepted process message :: delivery.events) =
      (received history ++ world.mailbox.entries ++ [message]).map .accepted := by
    rw [postings_append, foldl_cons, hd.unposted, recordEvent, h.ledger, hwriters]
    simp [alive]
  have hpeeks : ∀ later, received delivery.events ++ later = world.mailbox.entries ++
      [message] → PeeksSeeNext delivery.events later →
      PeeksSeeNext (history ++ .accepted process message :: delivery.events) later := by
    intro later hconserved hevents
    refine h.peeks.append [message] ?_ hconserved
    have hput : PeeksSeeNext [.accepted process message] (received delivery.events ++ later) :=
      peeksSeeNext_of_none (by simp)
    exact hput.append [] hevents (by simp)
  cases hconsumed : delivery.consumed with
  | true =>
    have hentries : world.mailbox.entries = [] :=
      hempty.resolve_left fun hnone => by simp [hconsumed] at hnone
    have hmessage : received delivery.events = [message] := by simp [hd.received, hconsumed]
    refine ⟨h.capacity, ?_, h.bounded, fun _ => hentries,
      fun hne => absurd hwriters hne, ?_, ?_⟩
    · simp [hpostings, receivedMessage, hmessage, hentries, hwriters, alive]
    · simpa [hwriters] using hd.queued
    · refine hpeeks _ (by simp [hmessage, hentries]) ?_
      simpa [hconsumed, hentries] using hd.peeks
  | false =>
    have hdrained := hd.drained hconsumed
    have hnone : received delivery.events = [] := by simp [hd.received, hconsumed]
    have hlength : world.mailbox.entries.length < bound := by
      rcases hroom with hreaders | hlt
      · simpa [h.readers_idle hreaders] using hbound
      · exact hlt
    refine ⟨h.capacity, ?_, ?_, fun hne => absurd hdrained hne, fun hne => absurd hwriters hne,
      ?_, ?_⟩
    · simp [hpostings, receivedMessage, hnone, hwriters, alive]
    · show (world.mailbox.entries ++ [message]).length ≤ bound
      rw [length_append]
      exact hlength
    · simpa [hwriters] using hd.queued
    · refine hpeeks _ (by simp [hnone]) ?_
      rcases hempty with ⟨hquiet, -⟩ | hentries
      · exact peeksSeeNext_of_none (by simp [hquiet])
      · simpa [hconsumed, hentries] using hd.peeks

theorem Kept.blockedPut {process : ProcessId} (message : Message)
    (hactive : Active world.processes process)
    (hfull : world.mailbox.writers = [] → world.mailbox.entries.length = bound) :
    Kept bound (history ++ [.blockedPut process message])
      ⟨{ world.mailbox with writers := world.mailbox.writers ++ [⟨process, message⟩] },
        wait world.processes process, world.registers⟩ := by
  refine { h with
    ledger := ?_
    writers_full := fun _ => ?_
    queued := h.queued.wait hactive (by simp [← append_assoc])
    peeks := h.peeks.append [] (peeksSeeNext_of_none (by simp)) (by simp [receivedMessage]) }
  · rw [postings_append, foldl_cons, recordEvent, h.ledger, alive_append,
      alive_congr (halted_wait _ _), alive_congr (halted_wait _ _), alive_cons_live hactive.1]
    simp [receivedMessage, alive]
  · by_cases hnone : world.mailbox.writers = []
    · exact hfull hnone
    · exact h.writers_full hnone

theorem Kept.blockedGet (reader : MailboxReader) (hactive : Active world.processes reader.process)
    (hentries : world.mailbox.entries = []) :
    Kept bound (history ++ [.blockedGet reader.process])
      ⟨{ world.mailbox with readers := world.mailbox.readers ++ [reader] },
        wait world.processes reader.process, world.registers⟩ := by
  refine { h with
    ledger := ?_
    readers_idle := fun _ => hentries
    queued := h.queued.wait hactive (by simp)
    peeks := h.peeks.append [] (peeksSeeNext_of_none (by simp)) (by simp [receivedMessage]) }
  rw [postings_append, alive_congr (halted_wait _ _)]
  simpa [receivedMessage, recordEvent] using h.ledger

theorem Kept.killed {process : ProcessId} (hlive : (world.processes process).halted = false) :
    Kept bound (history ++ [.killed process])
      { world with processes := kill world.processes process } := by
  refine { h with
    ledger := ?_
    queued := h.queued.kill hlive
    peeks := h.peeks.append [] (peeksSeeNext_of_none (by simp)) (by simp [receivedMessage]) }
  have haccepted : ∀ messages : List Message, (messages.map Posted.accepted).filter
      (!·.heldBy process) = messages.map Posted.accepted := fun messages =>
    filter_eq_self.mpr fun posted hposted => by
      obtain ⟨message, -, rfl⟩ := mem_map.mp hposted
      rfl
  rw [postings_append, foldl_cons, recordEvent, h.ledger, alive_kill hlive,
    filter_append, haccepted, filter_map]
  simp [receivedMessage, Posted.heldBy, Function.comp_def]

omit h in
theorem map_admit_blocked (processes : Processes) {writer : MailboxWriter}
    {rest : List MailboxWriter} (hnodup : ((writer :: rest).map (·.process)).Nodup) :
    ((alive (·.process) processes rest).map fun other =>
      Posted.blocked other.process other.value).map (Posted.admitted writer.process) =
    (alive (·.process) processes rest).map fun other => .blocked other.process other.value := by
  rw [map_map]
  refine map_congr_left fun other hother => ?_
  have hmem : other.process ∈ rest.map (·.process) :=
    mem_map_of_mem (mem_filter.mp hother).1
  have hne : other.process ≠ writer.process := by
    intro heq
    rw [heq] at hmem
    exact (nodup_cons.mp hnodup).1 hmem
  simp [Posted.admitted, hne]

theorem Kept.taken (process : ProcessId) (destination : RegisterId) {front : Message}
    {entries : List Message} (bytes : ℕ) (registers : Registers)
    (hentries : world.mailbox.entries = front :: entries) :
    let admission := admitWriter { world.mailbox with entries, stringBytes := bytes }
      world.mailbox.writers world.processes
    Kept bound (history ++ .received process destination front :: admission.events)
      ⟨admission.mailbox, admission.processes, registers⟩ := by
  intro admission
  have hreaders : world.mailbox.readers = [] := h.readers_nil (by simp [hentries])
  have hqueued : Queued world.processes ([] ++ world.mailbox.writers.map (·.process)) := by
    simpa [hreaders] using h.queued
  have hlength : entries.length + 1 ≤ bound := by
    have := h.bounded
    rwa [hentries] at this
  have hpeeks : ∀ events new, received events = [] →
      (∀ event ∈ events, ∀ process destination message,
        event ≠ .peeked process destination message) →
      PeeksSeeNext (history ++ .received process destination front :: events)
        (entries ++ new) := by
    intro events new hnone hquiet
    refine h.peeks.append new (peeksSeeNext_of_none (by simpa using hquiet)) ?_
    simp [receivedMessage, hnone, hentries]
  rcases admitWriter_cases { world.mailbox with entries, stringBytes := bytes } _ _ hqueued with
    ⟨heq, hdead, hqueued⟩ | ⟨writer, rest, hlive, heq, halive, hqueued⟩
  · simp only [admission, heq]
    refine ⟨h.capacity, ?_, Nat.le_of_succ_le hlength, fun hne => absurd hreaders hne,
      fun hne => absurd rfl hne, by simpa [hreaders] using hqueued,
      by simpa using hpeeks [] [] rfl (by simp)⟩
    have hledger := h.ledger
    rw [hdead] at hledger
    rw [postings_append]
    simpa [receivedMessage, hentries, alive, recordEvent] using hledger
  · simp only [admission, heq]
    have hwriters : world.mailbox.writers ≠ [] := by
      rintro hnil
      simp [hnil, alive] at halive
    refine ⟨h.capacity, ?_, ?_, fun hne => absurd hreaders hne, fun _ => ?_, ?_, ?_⟩
    · have hreceive : recordEvent (postings history) (.received process destination front) =
          postings history := rfl
      rw [postings_append, foldl_cons, foldl_cons, hreceive, recordEvent, h.ledger, halive,
        hentries, alive_congr (halted_wake _ _)]
      have hrest := map_admit_blocked world.processes hqueued.nodup
      simp [receivedMessage, Posted.admitted, Function.comp_def] at hrest ⊢
      exact hrest
    · rw [length_append]
      exact hlength
    · have := h.writers_full hwriters
      rw [hentries] at this
      simpa using this
    · simpa [hreaders] using hqueued.wake hlive (List.Perm.refl _)
    · exact hpeeks _ _ (by simp [receivedMessage]) (by simp)

end

end Steps

section Calls

/-- A get or peek returns with its message in its register, is refused, or blocks. -/
def GetAnswered (world : MailboxWorld) (process : ProcessId) (get : MailboxGet)
    (world' : MailboxWorld) (events : List MailboxEvent) : Prop :=
  (∃ message, (get.reader process).answer message ∈ events ∧
    world'.registers process get.destination = some message ∧ Active world'.processes process) ∨
  (get.nonblocking = true ∧ world.mailbox.entries = [] ∧ world' = world ∧
    events = [.refusedGet process]) ∨
  (get.nonblocking = false ∧ world.mailbox.entries = [] ∧
    get.reader process ∈ world'.mailbox.readers ∧ (world'.processes process).status = .waiting)

def PutAnswered (world : MailboxWorld) (process : ProcessId) (put : MailboxPut)
    (world' : MailboxWorld) (events : List MailboxEvent) : Prop :=
  (.accepted process put.message ∈ events ∧ Active world'.processes process) ∨
  (put.nonblocking = true ∧ world' = world ∧ events = [.refusedPut process put.message]) ∨
  (put.nonblocking = false ∧ ⟨process, put.message⟩ ∈ world'.mailbox.writers ∧
    (world'.processes process).status = .waiting)

/-- A blocked reader that runs again has its message in its register, a blocked writer that runs
again has been admitted, and no other reader is answered. -/
structure Answered (world : MailboxWorld) (call : MailboxCall) (world' : MailboxWorld)
    (events : List MailboxEvent) : Prop where
  gets : ∀ process get, call = .get process get → GetAnswered world process get world' events
  puts : ∀ process put, call = .put process put → PutAnswered world process put world' events
  readers : ∀ reader ∈ world.mailbox.readers,
    (world.processes reader.process).halted = false → Active world'.processes reader.process →
    ∃ message, reader.answer message ∈ events ∧
      world'.registers reader.process reader.destination = some message
  answers : ∀ reader message, reader.answer message ∈ events →
    (reader ∈ world.mailbox.readers ∧ (world.processes reader.process).halted = false) ∨
      ∃ process get, call = .get process get ∧ reader = get.reader process
  writers : ∀ writer ∈ world.mailbox.writers,
    (world.processes writer.process).halted = false →
    Active world'.processes writer.process → .admitted writer.process writer.value ∈ events

variable {bound : ℕ} {history events : List MailboxEvent} {world world' : MailboxWorld}
  {process : ProcessId}

theorem Answered.of_idle (call : MailboxCall) (h : Kept bound history world')
    (hreaders : world.mailbox.readers ⊆ world'.mailbox.readers)
    (hwriters : world.mailbox.writers ⊆ world'.mailbox.writers)
    (hquiet : ∀ reader : MailboxReader, ∀ message, reader.answer message ∈ events →
      ∃ process get, call = .get process get ∧ reader = get.reader process)
    (hgets : ∀ process get, call = .get process get →
      GetAnswered world process get world' events)
    (hputs : ∀ process put, call = .put process put →
      PutAnswered world process put world' events) :
    Answered world call world' events where
  gets := hgets
  puts := hputs
  readers _ hreader _ hactive := absurd hactive (h.reader_waits (hreaders hreader))
  answers reader message hanswer := .inr (hquiet reader message hanswer)
  writers _ hwriter _ hactive := absurd hactive (h.writer_waits (hwriters hwriter))

theorem answer_ne_of_unread {event : MailboxEvent}
    (h : event.receivedMessage = none) (hpeeked : ∀ process destination message,
      event ≠ .peeked process destination message) (reader : MailboxReader) (message : Message) :
    reader.answer message ≠ event := by
  unfold MailboxReader.answer
  split
  · exact (hpeeked _ _ _).symm
  · rintro rfl
    simp [receivedMessage] at h

section
variable (h : Kept bound history world)
include h

theorem Kept.put {put : MailboxPut} (hbound : 0 < bound) (hactive : Active world.processes process)
    (hput : mailboxPut world process put = .ok (world', events)) :
    Kept bound (history ++ events) world' ∧ Answered world (.put process put) world' events := by
  obtain ⟨_, _, hput⟩ := bind_ok.mp hput
  cases havailable : world.mailbox.writers.isEmpty &&
      (!world.mailbox.readers.isEmpty || world.mailbox.entries.length < world.mailbox.capacity) with
  | true =>
    simp only [havailable] at hput
    obtain ⟨rfl, rfl⟩ : _ ∧ _ := by simpa [pure, Except.pure] using hput
    simp only [Bool.and_eq_true, List.isEmpty_iff, Bool.or_eq_true, Bool.not_eq_true',
      List.isEmpty_eq_false_iff, decide_eq_true_eq, h.capacity] at havailable
    have hd := deliver_spec put.message world.mailbox.readers world.processes world.registers
      (by simpa using h.queued)
    have hkept := h.delivered process put.message
      (world.mailbox.stringBytes + put.message.bytes) hbound havailable.1 havailable.2
    refine ⟨hkept, by simp, ?_, ?_, ?_, by simp [havailable.1]⟩
    · rintro _ _ ⟨⟩
      exact .inl ⟨mem_cons_self, hd.active _ hactive⟩
    · intro reader hreader hlive hrunning
      rcases hd.answered reader hreader hlive with hqueued | ⟨hevent, hregister⟩
      · refine absurd hrunning (hkept.reader_waits ?_)
        split_ifs <;> exact hqueued
      · exact ⟨_, mem_cons_of_mem _ hevent, hregister⟩
    · intro reader message hanswer
      have hevent := (mem_cons.mp hanswer).resolve_left
        (answer_ne_of_unread rfl (by simp) reader message)
      obtain ⟨other, hother, hlive, heq⟩ := hd.answers _ hevent
      rw [(answer_inj.mp heq).1]
      exact .inl ⟨hother, hlive⟩
  | false =>
    simp only [havailable] at hput
    have hfull : world.mailbox.writers = [] → world.mailbox.entries.length = bound := by
      intro hnil
      have hbounded := h.bounded
      simp only [hnil, isEmpty_nil, Bool.true_and, Bool.or_eq_false_iff,
        decide_eq_false_iff_not, h.capacity] at havailable
      omega
    cases hnonblocking : put.nonblocking with
    | true =>
      obtain ⟨rfl, rfl⟩ : _ ∧ _ := by simpa [hnonblocking, pure, Except.pure] using hput
      refine ⟨h.idle (fun _ => rfl) rfl (peeksSeeNext_of_none (by simp)), ?_⟩
      refine .of_idle _ h (Subset.refl _) (Subset.refl _) ?_ (by simp) ?_
      · intro reader message hanswer
        exact absurd (mem_singleton.mp hanswer) (answer_ne_of_unread rfl (by simp) _ _)
      · rintro _ _ ⟨⟩
        exact .inr (.inl ⟨hnonblocking, rfl, rfl⟩)
    | false =>
      obtain ⟨rfl, rfl⟩ : _ ∧ _ := by simpa [hnonblocking, pure, Except.pure] using hput
      have hkept := h.blockedPut put.message hactive hfull
      refine ⟨hkept, .of_idle _ hkept (Subset.refl _) (by simp) ?_ (by simp) ?_⟩
      · intro reader message hanswer
        exact absurd (mem_singleton.mp hanswer) (answer_ne_of_unread rfl (by simp) _ _)
      · rintro _ _ ⟨⟩
        exact .inr (.inr ⟨hnonblocking, by simp, by simp [wait]⟩)

theorem Kept.get {get : MailboxGet} (hactive : Active world.processes process)
    (hget : mailboxGet world process get = .ok (world', events)) :
    Kept bound (history ++ events) world' ∧ Answered world (.get process get) world' events := by
  obtain ⟨_, _, hget⟩ := bind_ok.mp hget
  cases hentries : world.mailbox.entries with
  | cons front entries =>
    have hreaders : world.mailbox.readers = [] := h.readers_nil (by simp [hentries])
    have hregister : writeRegister world.registers process get.destination front process
        get.destination = some front := by simp [writeRegister]
    cases hpeek : get.peek with
    | true =>
      have hanswer : (get.reader process).answer front =
          .peeked process get.destination front := by
        simp [MailboxReader.answer, MailboxGet.reader, hpeek]
      obtain ⟨rfl, rfl⟩ : _ ∧ _ := by simpa [hentries, hpeek, pure, Except.pure] using hget
      have hkept : Kept bound (history ++ [(get.reader process).answer front]) { world with
          registers := writeRegister world.registers process get.destination front } := by
        rw [hanswer]
        exact h.idle (fun _ => rfl) rfl (peeksSeeNext_peeked (by simp [hentries]))
      refine ⟨hkept, .of_idle _ hkept (Subset.refl _) (Subset.refl _) ?_ ?_ (by simp)⟩
      · intro reader message hmem
        exact ⟨process, get, rfl, (answer_inj.mp (mem_singleton.mp hmem)).1⟩
      · rintro _ _ ⟨⟩
        exact .inl ⟨front, mem_singleton_self _, hregister, hactive⟩
    | false =>
      have hanswer : (get.reader process).answer front =
          .received process get.destination front := by
        simp [MailboxReader.answer, MailboxGet.reader, hpeek]
      obtain ⟨rfl, rfl⟩ : _ ∧ _ := by simpa [hentries, hpeek, pure, Except.pure] using hget
      have hkept := h.taken process get.destination (world.mailbox.stringBytes - front.bytes)
        (writeRegister world.registers process get.destination front) hentries
      rw [← hanswer] at hkept
      refine ⟨hkept, ?_⟩
      have hqueued : Queued world.processes ([] ++ world.mailbox.writers.map (·.process)) := by
        simpa [hreaders] using h.queued
      rcases admitWriter_cases { world.mailbox with
          entries, stringBytes := world.mailbox.stringBytes - front.bytes } _ _ hqueued with
        ⟨heq, hdead, -⟩ | ⟨writer, rest, hlive, heq, halive, -⟩
      · simp only [heq] at hkept ⊢
        refine ⟨?_, by simp, by simp [hreaders], ?_, fun writer hwriter hlive _ => ?_⟩
        · rintro _ _ ⟨⟩
          exact .inl ⟨front, mem_cons_self, hregister, hactive⟩
        · intro reader message hmem
          exact .inr ⟨process, get, rfl, (answer_inj.mp (mem_singleton.mp hmem)).1⟩
        · have hmem : writer ∈ alive (·.process) world.processes world.mailbox.writers :=
            mem_filter.mpr ⟨hwriter, by simp [hlive]⟩
          simp [hdead] at hmem
      · simp only [heq] at hkept ⊢
        refine ⟨?_, by simp, by simp [hreaders], ?_, fun other hother hlive hrunning => ?_⟩
        · rintro _ _ ⟨⟩
          exact .inl ⟨front, mem_cons_self, hregister, hactive.wake _⟩
        · intro reader message hmem
          have hself := (mem_cons.mp hmem).resolve_right fun hrest =>
            answer_ne_of_unread rfl (by simp) reader message (mem_singleton.mp hrest)
          exact .inr ⟨process, get, rfl, (answer_inj.mp hself).1⟩
        · have hmem : other ∈ alive (·.process) world.processes world.mailbox.writers :=
            mem_filter.mpr ⟨hother, by simp [hlive]⟩
          rw [halive] at hmem
          rcases mem_cons.mp hmem with rfl | hrest
          · simp
          · exact absurd hrunning (hkept.writer_waits (mem_filter.mp hrest).1)
  | nil =>
    cases hnonblocking : get.nonblocking with
    | true =>
      obtain ⟨rfl, rfl⟩ : _ ∧ _ := by
        simpa [hentries, hnonblocking, pure, Except.pure] using hget
      refine ⟨h.idle (fun _ => rfl) rfl (peeksSeeNext_of_none (by simp)), ?_⟩
      refine .of_idle _ h (Subset.refl _) (Subset.refl _) ?_ ?_ (by simp)
      · intro reader message hanswer
        exact absurd (mem_singleton.mp hanswer) (answer_ne_of_unread rfl (by simp) _ _)
      · rintro _ _ ⟨⟩
        exact .inr (.inl ⟨hnonblocking, hentries, rfl, rfl⟩)
    | false =>
      obtain ⟨rfl, rfl⟩ : _ ∧ _ := by
        simpa [hentries, hnonblocking, pure, Except.pure] using hget
      have hkept := h.blockedGet (get.reader process) hactive hentries
      simp only [hentries] at hkept
      refine ⟨hkept, .of_idle _ hkept (by simp) (Subset.refl _) ?_ ?_ (by simp)⟩
      · intro reader message hanswer
        exact absurd (mem_singleton.mp hanswer) (answer_ne_of_unread rfl (by simp) _ _)
      · rintro _ _ ⟨⟩
        exact .inr (.inr ⟨hnonblocking, hentries, by simp, by simp [wait]⟩)

theorem Kept.step {call : MailboxCall} (hbound : 0 < bound) (henabled : call.Enabled world)
    (hstep : world.step call = .ok (world', events)) :
    Kept bound (history ++ events) world' ∧ Answered world call world' events := by
  cases call with
  | put process put => exact h.put hbound henabled hstep
  | get process get => exact h.get henabled hstep
  | kill process =>
    obtain ⟨rfl, rfl⟩ : _ ∧ _ := by simpa [MailboxWorld.step] using hstep
    have hkept := h.killed henabled
    refine ⟨hkept, .of_idle _ hkept (Subset.refl _) (Subset.refl _) ?_ (by simp) (by simp)⟩
    intro reader message hanswer
    exact absurd (mem_singleton.mp hanswer) (answer_ne_of_unread rfl (by simp) _ _)

end

end Calls

theorem mailboxCreate_ok (h : mailboxCreate elementKind elementWidth requested = .ok mailbox) :
    0 < mailbox.capacity ∧ mailbox.entries = [] ∧ mailbox.readers = [] ∧
      mailbox.writers = [] := by
  obtain ⟨_, _, h⟩ := bind_ok.mp h
  obtain ⟨_, hmaximum, h⟩ := bind_ok.mp h
  rw [refuse_ok, Bool.or_eq_false_iff, decide_eq_false_iff_not] at hmaximum
  obtain rfl : _ = mailbox := by simpa [pure, Except.pure] using h
  refine ⟨?_, rfl, rfl, rfl⟩
  by_cases hrequested : requested = 0
  · rw [if_pos hrequested]
    exact Nat.pos_of_ne_zero hmaximum.1
  · rw [if_neg hrequested]
    exact Nat.pos_of_ne_zero hrequested

def MailboxWorld.start (mailbox : MailboxState) : MailboxWorld :=
  ⟨mailbox, freshProcesses, fun _ _ => none⟩

abbrev MailboxRun (mailbox : MailboxState) : List MailboxEvent → MailboxWorld → Prop :=
  Run (fun world call => MailboxCall.Enabled world call) MailboxWorld.step (.start mailbox)

theorem mailbox_kept (hcreate : mailboxCreate elementKind elementWidth requested = .ok mailbox)
    {world : MailboxWorld} (run : MailboxRun mailbox history world) :
    Kept mailbox.capacity history world := by
  obtain ⟨hbound, hentries, hreaders, hwriters⟩ := mailboxCreate_ok hcreate
  refine run.keeps (Kept mailbox.capacity) ?_ fun h henabled hstep =>
    (h.step hbound henabled hstep).1
  refine ⟨rfl, ?_, ?_, ?_, ?_, ?_, ?_⟩
  · simp [postings, MailboxWorld.start, hentries, hwriters, alive]
  · simp [MailboxWorld.start, hentries]
  · simp [MailboxWorld.start, hreaders]
  · simp [MailboxWorld.start, hwriters]
  · simpa [MailboxWorld.start, hreaders, hwriters] using queued_fresh
  · exact peeksSeeNext_of_none (by simp)

/-- Whatever order puts, gets, peeks and kills come in: what was received, what is queued and what
the live blocked putters hold are the posted messages in the order of their puts, without those of
putters killed while blocked; a peek saw the message that the next get took or will take; the
entries fit the capacity; a live process is blocked only as a reader of an empty mailbox or as
a putter at a full one; and the next call, whichever it is, leaves with its message each get or
peek that returns in it, one that was blocked included. -/
theorem mailbox_run_fifo {elementKind : MailboxElementKind} {elementWidth requested : ℕ}
    {mailbox : MailboxState}
    (hcreate : mailboxCreate elementKind elementWidth requested = .ok mailbox)
    {history : List MailboxEvent} {world : MailboxWorld} (run : MailboxRun mailbox history world) :
    (postings history = (received history ++ world.mailbox.entries).map .accepted ++
      (alive (·.process) world.processes world.mailbox.writers).map fun writer =>
        .blocked writer.process writer.value) ∧
      PeeksSeeNext history world.mailbox.entries ∧
      world.mailbox.entries.length ≤ mailbox.capacity ∧
      (∀ p, (world.processes p).halted = false → (world.processes p).status = .waiting →
        (p ∈ world.mailbox.readers.map (·.process) ∧ world.mailbox.entries = []) ∨
        (p ∈ world.mailbox.writers.map (·.process) ∧
          world.mailbox.entries.length = mailbox.capacity)) ∧
      ∀ call world' events, MailboxCall.Enabled world call →
        world.step call = .ok (world', events) → Answered world call world' events := by
  have h := mailbox_kept hcreate run
  refine ⟨h.ledger, h.peeks, h.bounded, fun p hlive hwaiting => ?_,
    fun call world' events henabled hstep =>
      (h.step (mailboxCreate_ok hcreate).1 henabled hstep).2⟩
  rcases mem_append.mp ((h.queued.waits p hlive).mp hwaiting) with hreader | hwriter
  · exact .inl ⟨hreader, h.readers_idle fun hnil => by simp [hnil] at hreader⟩
  · exact .inr ⟨hwriter, h.writers_full fun hnil => by simp [hnil] at hwriter⟩

/-- Processes 3, 4 and 5 block at the empty mailbox, 4 to peek and the others to get, and 3 is
killed there: the put of process 1 passes 3 over, shows its message to 4 and leaves it with 5. The
message of process 2, killed while it is blocked behind another put, leaves the ledger. -/
theorem killed_putter_leaves_ledger : ∃ mailbox waits world world' shown,
    mailboxCreate .packed 1 1 = .ok mailbox ∧ MailboxRun mailbox waits world ∧
    waits = [.blockedGet 3, .blockedGet 4, .blockedGet 5, .killed 3] ∧
    world.step (.put 1 ⟨1, .packed [.one], false⟩) = .ok (world', shown) ∧
    shown = [.accepted 1 (.packed [.one]), .peeked 4 0 (.packed [.one]),
      .received 5 0 (.packed [.one])] ∧
    (∃ message, MailboxReader.answer ⟨5, 0, false⟩ message ∈ shown ∧
      world'.registers 5 0 = some message) ∧
    ∃ history final, MailboxRun mailbox history final ∧
      received history = [.packed [.one], .packed [.x]] ∧
      postings history = (received history ++ final.mailbox.entries).map .accepted ++
        (alive (·.process) final.processes final.mailbox.writers).map fun writer =>
          .blocked writer.process writer.value := by
  have hcreate : mailboxCreate .packed 1 1 = .ok ⟨.packed, 1, 1, [], 0, [], []⟩ := by decide
  have waiting : MailboxRun ⟨.packed, 1, 1, [], 0, [], []⟩
      ([] ++ [.blockedGet 3] ++ [.blockedGet 4] ++ [.blockedGet 5] ++ [.killed 3]) _ :=
    .snoc (.kill 3)
      (.snoc (.get 5 ⟨.packed, 1, 0, false, false⟩)
        (.snoc (.get 4 ⟨.packed, 1, 0, true, false⟩)
          (.snoc (.get 3 ⟨.packed, 1, 0, false, false⟩) .nil (by decide) rfl) (by decide) rfl)
        (by decide) rfl) (by decide) rfl
  have run : MailboxRun ⟨.packed, 1, 1, [], 0, [], []⟩ (_ ++ [.accepted 1 (.packed [.one]),
      .peeked 4 0 (.packed [.one]), .received 5 0 (.packed [.one])] ++
      [.accepted 1 (.packed [.x])] ++ [.blockedPut 2 (.packed [.zero])] ++ [.killed 2] ++
      [.received 5 0 (.packed [.x])]) _ :=
    .snoc (.get 5 ⟨.packed, 1, 0, false, false⟩)
      (.snoc (.kill 2)
        (.snoc (.put 2 ⟨1, .packed [.zero], false⟩)
          (.snoc (.put 1 ⟨1, .packed [.x], false⟩)
            (.snoc (.put 1 ⟨1, .packed [.one], false⟩) waiting (by decide) rfl) (by decide) rfl)
          (by decide) rfl) (by decide) rfl) (by decide) rfl
  have hanswered :=
    (mailbox_run_fifo hcreate waiting).2.2.2.2 (.put 1 ⟨1, .packed [.one], false⟩)
    _ _ (by decide) rfl
  exact ⟨_, _, _, _, _, hcreate, waiting, rfl, rfl, rfl,
    hanswered.readers ⟨5, 0, false⟩ (by decide) rfl (by decide),
    _, _, run, rfl, (mailbox_run_fifo hcreate run).1⟩

end FsimRuntime.Synchronization
