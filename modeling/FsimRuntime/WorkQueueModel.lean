import FsimRuntime.BinaryHeap

/-!
# The scheduler's work queue

`CancellationSlots`, `Entry`, `BatchTicket` and `WorkQueue`
(`scheduler_internal.hpp`). Tickets are named by the address of their storage.
`SchedulerTaskDescriptor` entries are tasks like any other. Vector capacities
are not modelled.
-/

namespace FsimRuntime.Queue

structure Identity where
  slot : ℕ
  generation : ℕ
  deriving DecidableEq, Repr

inductive Callback
  | task (id : ℕ)
  | fallback (executor payload : ℕ)
  deriving DecidableEq, Repr

structure Slot where
  generation : ℕ
  active : Bool
  task : Option Callback
  deriving DecidableEq, Repr

/-- `free` is the list that starts at `free_head_`. -/
structure CancellationSlots where
  slots : List Slot
  free : List ℕ
  deriving DecidableEq, Repr

namespace CancellationSlots

def generationLimit : ℕ := 2 ^ 64 - 1

def active (c : CancellationSlots) (identity : Identity) : Bool :=
  match c.slots[identity.slot]? with
  | some slot => slot.generation = identity.generation && slot.active
  | none => false

def acquire (c : CancellationSlots) (task : Callback) : Identity × CancellationSlots :=
  match c.free with
  | index :: free =>
    let generation := (c.slots[index]?.map (·.generation)).getD 0 + 1
    (⟨index, generation⟩, ⟨c.slots.set index ⟨generation, true, some task⟩, free⟩)
  | [] => (⟨c.slots.length, 1⟩, ⟨c.slots ++ [⟨1, true, some task⟩], []⟩)

def release (c : CancellationSlots) (identity : Identity) : CancellationSlots :=
  if c.active identity then
    ⟨c.slots.set identity.slot ⟨identity.generation, false, none⟩,
      if identity.generation = generationLimit then c.free else identity.slot :: c.free⟩
  else c

end CancellationSlots

structure GroupKey where
  generation : ℕ
  group : ℕ
  deriving DecidableEq, Repr

def GroupKey.valid (key : GroupKey) : Bool := key.generation ≠ 0 && key.group ≠ 0

structure BatchEntry where
  executor : ℕ
  payload : ℕ
  fallback : Callback
  groupKey : GroupKey
  deriving DecidableEq, Repr

/-- The callback of a cancelable entry is in its slot. -/
inductive EntryTask
  | task (callback : Callback)
  | empty
  | batch (entry : BatchEntry)
  | ticket (ref : ℕ)
  | compactFallback (callback : Callback)
  deriving DecidableEq, Repr

structure Entry where
  order : ℕ
  sequence : ℕ
  task : EntryTask
  cancellation : Option Identity
  deriving DecidableEq, Repr

abbrev Key := ℕ ×ₗ ℕ

def Entry.key (entry : Entry) : Key := toLex (entry.order, entry.sequence)

def keyLess (lhs rhs : Entry) : Bool :=
  lhs.order < rhs.order || (lhs.order = rhs.order && lhs.sequence < rhs.sequence)

def Entry.isCancelled (slots : CancellationSlots) (entry : Entry) : Bool :=
  match entry.cancellation with
  | some identity => !slots.active identity
  | none => false

theorem isCancelled_eq_false {e : Entry} (slots : CancellationSlots) (h : e.cancellation = none) :
    e.isCancelled slots = false := by rw [Entry.isCancelled, h]

def Entry.ticketRef (entry : Entry) : Option ℕ :=
  match entry.task with
  | .ticket ref => some ref
  | _ => none

structure CompactMember where
  order : ℕ
  sequence : ℕ
  payload : ℕ
  deriving DecidableEq, Repr

structure BatchTicket where
  members : List Entry
  compactMembers : List CompactMember
  compact : Bool
  cursor : ℕ
  groupKey : GroupKey
  orderedTask : ℕ
  deriving DecidableEq, Repr

namespace BatchTicket

def fallbackMember (ticket : BatchTicket) (member : CompactMember) : Entry :=
  ⟨member.order, member.sequence,
    .compactFallback (.fallback ticket.orderedTask member.payload), none⟩

def memberEntries (ticket : BatchTicket) : List Entry :=
  if ticket.compact then ticket.compactMembers.map ticket.fallbackMember else ticket.members

def count (ticket : BatchTicket) : ℕ := ticket.memberEntries.length

def remaining (ticket : BatchTicket) : List Entry := ticket.memberEntries.drop ticket.cursor

end BatchTicket

abbrev Tickets := ℕ → BatchTicket

structure WorkQueue where
  entries : List Entry
  currentInsertions : List Entry
  cursor : ℕ
  pushesSinceCompaction : ℕ
  needsSort : Bool
  prepared : Bool
  hasCancelable : Bool
  dispatchingTicket : Option ℕ
  dispatchingTicketCount : ℕ
  deriving DecidableEq, Repr

namespace WorkQueue

def start : WorkQueue := ⟨[], [], 0, 0, false, false, false, none, 0⟩

def sortEntries (entries : List Entry) : List Entry :=
  entries.insertionSort fun a b => a.key ≤ b.key

def rotateInto (entry : Entry) : List Entry → List Entry
  | [] => [entry]
  | head :: rest => if keyLess entry head then entry :: head :: rest
      else head :: rotateInto entry rest

def repositionFrontTicket (q : WorkQueue) : WorkQueue :=
  match q.entries.drop q.cursor with
  | first :: rest =>
    if first.ticketRef.isSome then
      { q with entries := q.entries.take q.cursor ++ rotateInto first rest }
    else q
  | [] => q

def popInsertion (q : WorkQueue) : WorkQueue :=
  { q with currentInsertions := (BinaryHeap.popHeap Entry.key q.currentInsertions).dropLast }

def discardCancelledInsertions (slots : CancellationSlots) : ℕ → WorkQueue → WorkQueue
  | 0, q => q
  | fuel + 1, q =>
    match q.currentInsertions with
    | front :: _ =>
      if front.isCancelled slots then discardCancelledInsertions slots fuel q.popInsertion else q
    | [] => q

variable (slots : CancellationSlots)

def compact (q : WorkQueue) : WorkQueue :=
  if q.dispatchingTicket.isSome then q
  else
    let entries := (q.entries.drop q.cursor).filter fun e => !e.isCancelled slots
    let insertions := BinaryHeap.makeHeap Entry.key
      (q.currentInsertions.filter fun e => !e.isCancelled slots)
    { q with
      entries := entries
      cursor := 0
      currentInsertions := insertions
      pushesSinceCompaction := 0
      hasCancelable :=
        entries.any (·.cancellation.isSome) || insertions.any (·.cancellation.isSome)
      needsSort := q.needsSort && !entries.isEmpty }

variable (tickets : Tickets)

def queued (q : WorkQueue) (entry : Entry) : List Entry :=
  match entry.task with
  | .ticket ref =>
    if q.dispatchingTicket = some ref then
      (tickets ref).remaining.drop q.dispatchingTicketCount
    else (tickets ref).remaining
  | _ => [entry]

def pendingEmpty (q : WorkQueue) : Bool :=
  (q.entries.drop q.cursor).all (fun entry => entry.isCancelled slots ||
    match entry.task with
    | .ticket ref => q.dispatchingTicket = some ref &&
        (tickets ref).count ≤ (tickets ref).cursor + q.dispatchingTicketCount
    | _ => false) &&
  q.currentInsertions.all fun entry => entry.isCancelled slots

def empty (q : WorkQueue) : Bool :=
  (q.entries.length ≤ q.cursor && q.currentInsertions.isEmpty) || q.pendingEmpty slots tickets

def compactBeforePush (q : WorkQueue) : WorkQueue :=
  let size := q.entries.length - q.cursor + q.currentInsertions.length
  if q.hasCancelable && 64 ≤ size && size / 2 ≤ q.pushesSinceCompaction then q.compact slots
  else q

/-- `push`, and `push_reserved`, which differs only in who has reserved the capacity. -/
def push (entry : Entry) (q : WorkQueue) : WorkQueue :=
  let q := q.compactBeforePush slots
  let q :=
    if q.prepared then
      { q with currentInsertions := BinaryHeap.pushHeap Entry.key (q.currentInsertions ++ [entry]) }
    else
      { q with
        entries := q.entries ++ [entry]
        needsSort := q.needsSort || (q.cursor < q.entries.length &&
          (q.entries.getLast?.any fun last => keyLess entry last)) }
  { q with
    hasCancelable := q.hasCancelable || entry.cancellation.isSome
    pushesSinceCompaction := q.pushesSinceCompaction + 1 }

def sortForDispatch (q : WorkQueue) : WorkQueue :=
  if q.needsSort then
    { q with
      entries := q.entries.take q.cursor ++ sortEntries (q.entries.drop q.cursor)
      needsSort := false
      prepared := true }
  else { q with prepared := true }

def skipCancelled (q : WorkQueue) : WorkQueue :=
  { q with cursor := q.cursor +
      ((q.entries.drop q.cursor).takeWhile fun e => e.isCancelled slots).length }

def prepare (q : WorkQueue) : WorkQueue :=
  let q := q.sortForDispatch.skipCancelled slots
  let q := q.discardCancelledInsertions slots q.currentInsertions.length
  if q.hasCancelable && 64 ≤ q.cursor && q.entries.length / 2 ≤ q.cursor then q.compact slots
  else q

def maximumTickets : ℕ := 64

def maximumMembersPerTicket : ℕ := 64

def groupable (entry : Entry) : Option BatchEntry :=
  match entry.task with
  | .batch batch => if batch.groupKey.valid && entry.cancellation.isNone then some batch else none
  | _ => none

def sameGroup (first : BatchEntry) (candidate : Entry) : Bool :=
  match candidate.task with
  | .batch batch => batch.executor = first.executor && batch.groupKey = first.groupKey &&
      candidate.cancellation.isNone
  | _ => false

structure Group where
  key : GroupKey
  first : Entry
  others : List Entry

def cutGroups : ℕ → ℕ → List Entry → List (Entry ⊕ Group)
  | 0, _, entries => entries.map .inl
  | _, _, [] => []
  | fuel + 1, groups, first :: rest =>
    match groupable first with
    | some batch =>
      let others := (rest.takeWhile (sameGroup batch)).take (maximumMembersPerTicket - 1)
      if groups < maximumTickets ∧ others ≠ [] then
        .inr ⟨batch.groupKey, first, others⟩ ::
          cutGroups fuel (groups + 1) (rest.drop others.length)
      else .inl first :: cutGroups fuel groups rest
    | none => .inl first :: cutGroups fuel groups rest

def Group.ticket (group : Group) : BatchTicket :=
  ⟨group.first :: group.others, [], false, 0, group.key, 0⟩

def Group.entry (group : Group) (ref : ℕ) : Entry :=
  ⟨group.first.order, group.first.sequence, .ticket ref, none⟩

def storeGroups (tickets : Tickets) : ℕ → List (Entry ⊕ Group) → List Entry × Tickets
  | _, [] => ([], tickets)
  | ref, .inl entry :: rest =>
    (entry :: (storeGroups tickets ref rest).1, (storeGroups tickets ref rest).2)
  | ref, .inr group :: rest =>
    (group.entry ref :: (storeGroups tickets (ref + 1) rest).1,
      Function.update (storeGroups tickets (ref + 1) rest).2 ref group.ticket)

/-- `ref` is the first address of the ticket vector, and `vacant` that the
vector and its member storage are empty. -/
def compactBatchableGroups (ref : ℕ) (vacant : Bool) (q : WorkQueue) : WorkQueue × Tickets :=
  if q.prepared && q.cursor = 0 && q.currentInsertions.isEmpty && vacant then
    let stored := storeGroups tickets ref (cutGroups q.entries.length 0 q.entries)
    ({ q with entries := stored.1 }, stored.2)
  else (q, tickets)

def showMember (entry : Entry) (ticket : BatchTicket) : Entry :=
  match ticket.remaining with
  | next :: _ => { entry with order := next.order, sequence := next.sequence }
  | [] => entry

def showFirst (tickets : Tickets) (ref : ℕ) : List Entry → List Entry
  | [] => []
  | entry :: rest =>
    if entry.ticketRef = some ref then
      showMember entry { tickets ref with cursor := 0 } :: rest
    else entry :: showFirst tickets ref rest

def refreshReadinessTicketKey (ref : ℕ) (q : WorkQueue) : Option WorkQueue :=
  if q.prepared || (tickets ref).count = 0 then none
  else if q.entries.any fun e => e.ticketRef = some ref then
    some { q with entries := showFirst tickets ref q.entries, needsSort := true }
  else if q.currentInsertions.any fun e => e.ticketRef = some ref then
    some { q with currentInsertions :=
      BinaryHeap.makeHeap Entry.key (showFirst tickets ref q.currentInsertions) }
  else none

def gainMembers (ticket : BatchTicket) (members : List Entry) : BatchTicket :=
  { ticket with members := sortEntries (ticket.members ++ members) }

def gainCompactMembers (ticket : BatchTicket) (members : List CompactMember) : BatchTicket :=
  let sorted := (ticket.compactMembers ++ members).insertionSort fun a b =>
    toLex (a.order, a.sequence) ≤ toLex (b.order, b.sequence)
  { ticket with compactMembers := sorted }

def advance (ref n : ℕ) : Tickets :=
  Function.update tickets ref { tickets ref with cursor := (tickets ref).cursor + n }

structure BatchTicketDispatch where
  ticket : ℕ
  queueEntry : ℕ
  count : ℕ
  deriving DecidableEq, Repr

def boundary (q : WorkQueue) : Option Entry :=
  match q.currentInsertions.head?, q.entries[q.cursor + 1]? with
  | some front, some following => some (if keyLess front following then front else following)
  | some front, none => some front
  | none, following => following

def offered (q : WorkQueue) (ticket : BatchTicket) : ℕ :=
  match q.boundary with
  | some limit => (ticket.remaining.rdropWhile fun m => !keyLess m limit).length
  | none => ticket.remaining.length

def nextBatchTicketDispatch (q : WorkQueue) : WorkQueue × Option BatchTicketDispatch :=
  let q := q.prepare slots
  (q, match q.dispatchingTicket, q.entries[q.cursor]? with
    | none, some entry =>
      match entry.ticketRef with
      | some ref =>
        if entry.isCancelled slots || (q.currentInsertions.head?.any (keyLess · entry)) ||
            q.offered (tickets ref) = 0 then none
        else some ⟨ref, q.cursor, q.offered (tickets ref)⟩
      | none => none
    | _, _ => none)

def beginBatchTicketDispatch (dispatch : BatchTicketDispatch) (q : WorkQueue) : Option WorkQueue :=
  if dispatch.count ≠ 0 ∧ q.dispatchingTicket = none ∧ dispatch.queueEntry = q.cursor ∧
      (q.entries[q.cursor]?.bind Entry.ticketRef) = some dispatch.ticket ∧
      (tickets dispatch.ticket).cursor + dispatch.count ≤ (tickets dispatch.ticket).count then
    some { q with dispatchingTicket := some dispatch.ticket, dispatchingTicketCount :=
      dispatch.count }
  else none

def finishBatchTicketDispatch (q : WorkQueue) : WorkQueue :=
  let q :=
    if q.dispatchingTicket.isSome ∧
        (q.entries[q.cursor]?.bind Entry.ticketRef) = q.dispatchingTicket then
      q.repositionFrontTicket
    else q
  { q with dispatchingTicket := none, dispatchingTicketCount := 0 }

/-- `n` members leave the dispatched ticket: `consume_batch_ticket_dispatch`,
and with `n = 1` the removal in `take_batch_ticket_fallback`. -/
def leave (dispatch : BatchTicketDispatch) (n : ℕ) (q : WorkQueue) : WorkQueue × Tickets :=
  let tickets := advance tickets dispatch.ticket n
  if (tickets dispatch.ticket).cursor < (tickets dispatch.ticket).count then
    ({ q with entries :=
        q.entries.modify dispatch.queueEntry (showMember · (tickets dispatch.ticket)) }, tickets)
  else ({ q with cursor := q.cursor + 1 }, tickets)

def consumeBatchTicketDispatch (dispatch : BatchTicketDispatch) (n : ℕ)
    (q : WorkQueue) : WorkQueue × Tickets :=
  q.leave tickets dispatch n

def takeBatchTicketFallback (dispatch : BatchTicketDispatch) (q : WorkQueue) :
    Option Entry × WorkQueue × Tickets :=
  ((tickets dispatch.ticket).remaining.head?, q.leave tickets dispatch 1)

structure Popped where
  entry : Entry
  exhaustedTicket : Option ℕ
  queue : WorkQueue
  tickets : Tickets

def popEntry (q : WorkQueue) : Option Popped :=
  match q.entries[q.cursor]? with
  | none => none
  | some entry =>
    match entry.ticketRef with
    | none => some ⟨entry, none, { q with cursor := q.cursor + 1 }, tickets⟩
    | some ref =>
      (tickets ref).remaining.head?.map fun member =>
        let tickets := advance tickets ref 1
        if (tickets ref).cursor < (tickets ref).count then
          let entries := q.entries.modify q.cursor (showMember · (tickets ref))
          ⟨member, none, repositionFrontTicket { q with entries := entries }, tickets⟩
        else ⟨member, some ref, { q with cursor := q.cursor + 1 }, tickets⟩

def popInserted (q : WorkQueue) : Option Popped :=
  match q.currentInsertions.head? with
  | none => none
  | some entry =>
    let q := q.popInsertion
    match entry.ticketRef with
    | none => some ⟨entry, none, q, tickets⟩
    | some ref =>
      (tickets ref).remaining.head?.map fun member =>
        let tickets := advance tickets ref 1
        if (tickets ref).cursor < (tickets ref).count then
          let insertions := BinaryHeap.pushHeap Entry.key
            (q.currentInsertions ++ [showMember entry (tickets ref)])
          ⟨member, none, { q with currentInsertions := insertions }, tickets⟩
        else ⟨member, some ref, q, tickets⟩

def pop (q : WorkQueue) : Option Popped :=
  let q := q.prepare slots
  match q.currentInsertions.head?, q.entries[q.cursor]? with
  | some front, some entry =>
    if keyLess front entry then q.popInserted tickets else q.popEntry tickets
  | some _, none => q.popInserted tickets
  | none, _ => q.popEntry tickets

def clearConsumed (q : WorkQueue) : WorkQueue :=
  if q.empty slots tickets then
    { q with
      entries := []
      currentInsertions := []
      cursor := 0
      pushesSinceCompaction := 0
      needsSort := false
      prepared := false
      hasCancelable := false }
  else q

end WorkQueue

end FsimRuntime.Queue
