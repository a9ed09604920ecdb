import FsimRuntime.WorkQueueUpdates

/-!
# Runs of a work queue

Any interleaving of the queue's operations. A ticket dispatch lasts from its
beginning to the operation that finishes it, and what its executor does in
between are operations of their own.
-/

namespace FsimRuntime.Queue
open WorkQueue Function List

structure World where
  slots : CancellationSlots
  tickets : Tickets
  queue : WorkQueue
  dispatch : Option WorkQueue.BatchTicketDispatch

inductive Op
  | push (entry : Entry)
  | pushCancelable (order sequence : ℕ) (callback : Callback)
  | pushTicket (ref : ℕ) (ticket : BatchTicket)
  | cancel (identity : Identity)
  | compact
  | prepare
  | compactBatchableGroups (ref : ℕ) (vacant : Bool)
  | gainMembers (ref : ℕ) (members : List Entry)
  | gainCompactMembers (ref : ℕ) (members : List CompactMember)
  | beginDispatch (limit : ℕ)
  | consume (count : ℕ)
  | takeFallback
  | finish
  | pop
  | clearConsumed

def World.start : World where
  slots := ⟨[], []⟩
  tickets := fun _ => ⟨[], [], false, 0, ⟨0, 0⟩, 0⟩
  queue := .start
  dispatch := none

def World.finish (w : World) (left : WorkQueue × Tickets) : World :=
  { w with queue := left.1.finishBatchTicketDispatch, tickets := left.2, dispatch := none }

def World.gain (w : World) (ref : ℕ) (ticket : BatchTicket) : World :=
  let tickets := update w.tickets ref ticket
  { w with
    tickets := tickets
    queue := (w.queue.refreshReadinessTicketKey tickets ref).getD w.queue }

/-- An executor that claims more members than it was offered is an error, and
the dispatch finishes without it. -/
def World.step (w : World) : Op → World
  | .push entry => { w with queue := w.queue.push w.slots entry }
  | .pushCancelable order sequence callback =>
    let acquired := w.slots.acquire callback
    { w with
      slots := acquired.2
      queue := w.queue.push acquired.2 ⟨order, sequence, .empty, some acquired.1⟩ }
  | .pushTicket ref ticket =>
    { w with
      tickets := update w.tickets ref ticket
      queue := w.queue.push w.slots (WorkQueue.showMember ⟨0, 0, .ticket ref, none⟩ ticket) }
  | .cancel identity => { w with slots := w.slots.release identity }
  | .compact => { w with queue := w.queue.compact w.slots }
  | .prepare => { w with queue := w.queue.prepare w.slots }
  | .compactBatchableGroups ref vacant =>
    let grouped := w.queue.compactBatchableGroups w.tickets ref vacant
    { w with queue := grouped.1, tickets := grouped.2 }
  | .gainMembers ref members => w.gain ref (WorkQueue.gainMembers (w.tickets ref) members)
  | .gainCompactMembers ref members =>
    w.gain ref (WorkQueue.gainCompactMembers (w.tickets ref) members)
  | .beginDispatch limit =>
    match w.queue.nextBatchTicketDispatch w.slots w.tickets with
    | (q, some offered) =>
      let dispatch := { offered with count := min offered.count limit }
      match q.beginBatchTicketDispatch w.tickets dispatch with
      | some q => { w with queue := q, dispatch := some dispatch }
      | none => { w with queue := q }
    | (q, none) => { w with queue := q }
  | .consume count =>
    match w.dispatch with
    | some dispatch =>
      if count ≤ dispatch.count then w.finish (w.queue.leave w.tickets dispatch count)
      else w.finish (w.queue, w.tickets)
    | none => w
  | .takeFallback =>
    match w.dispatch with
    | some dispatch => w.finish (w.queue.takeBatchTicketFallback w.tickets dispatch).2
    | none => w
  | .finish => if w.dispatch.isSome then w.finish (w.queue, w.tickets) else w
  | .pop =>
    match w.queue.pop w.slots w.tickets with
    | some popped => { w with queue := popped.queue, tickets := popped.tickets }
    | none => w
  | .clearConsumed => { w with queue := w.queue.clearConsumed w.slots w.tickets }

def Plain (members : List Entry) : Prop :=
  ∀ m ∈ members, m.cancellation = none ∧ m.ticketRef = none

instance (members : List Entry) : Decidable (Plain members) := by
  unfold Plain
  infer_instance

/-- What the scheduler guarantees where it uses an operation: a ticket that
enters a queue is in no other entry and has sorted members, a ticket that gains
members waits in an unprepared queue, the addresses of a fresh ticket vector
are unused, only a nonempty queue is popped, and only insertions, cancellations
and compactions happen during a dispatch. -/
def World.Permits (w : World) : Op → Prop
  | .push entry => entry.ticketRef = none
  | .pushTicket ref ticket => (∀ x ∈ w.queue.live, x.ticketRef ≠ some ref) ∧
      ticket.remaining ≠ [] ∧ Sorted ticket.remaining ∧ Plain ticket.remaining
  | .compactBatchableGroups ref _ => w.dispatch = none ∧
      ∀ x ∈ w.queue.live, ∀ r ∈ x.ticketRef, r < ref
  | .gainMembers ref members => w.queue.prepared = false ∧
      (∃ x ∈ w.queue.live, x.ticketRef = some ref) ∧ (w.tickets ref).cursor = 0 ∧
      (w.tickets ref).compact = false ∧ Plain members
  | .gainCompactMembers ref _ => w.queue.prepared = false ∧
      (∃ x ∈ w.queue.live, x.ticketRef = some ref) ∧ (w.tickets ref).cursor = 0 ∧
      (w.tickets ref).compact = true
  | .beginDispatch _ | .clearConsumed => w.dispatch = none
  | .pop => w.dispatch = none ∧ w.queue.empty w.slots w.tickets = false
  | _ => True

instance (w : World) (op : Op) : Decidable (w.Permits op) := by
  unfold World.Permits
  cases op <;> infer_instance

def World.run (w : World) (ops : List Op) : World := ops.foldl World.step w

def World.PermitsAll : World → List Op → Prop
  | _, [] => True
  | w, op :: ops => w.Permits op ∧ (w.step op).PermitsAll ops

instance : ∀ (w : World) (ops : List Op), Decidable (w.PermitsAll ops)
  | _, [] => .isTrue trivial
  | w, op :: ops =>
    have := instDecidablePermitsAll (w.step op) ops
    inferInstanceAs (Decidable (_ ∧ _))

def World.logical (w : World) : Multiset Entry := w.queue.logical w.slots w.tickets

structure World.Inv (w : World) : Prop where
  valid : w.queue.Valid w.tickets
  idle : w.dispatch = none → w.queue.dispatchingTicket = none
  running : ∀ d, w.dispatch = some d → w.queue.dispatchingTicket = some d.ticket ∧
    d.queueEntry = w.queue.cursor ∧ d.count = w.queue.dispatchingTicketCount ∧ 0 < d.count

namespace WorkQueue

section Dispatching
variable {slots : CancellationSlots} {tickets : Tickets} {q : WorkQueue} {e : Entry} {ref : ℕ}

theorem compact_of_dispatching (hd : q.dispatchingTicket = some ref) : q.compact slots = q := by
  rw [compact, hd]
  rfl

theorem compact_cursor (hd : q.dispatchingTicket = some ref) :
    (q.compact slots).cursor = q.cursor := by rw [compact_of_dispatching hd]

section
variable (h : Valid tickets q) (hd : q.dispatchingTicket = some ref)
include h hd

theorem push_cursor : (q.push slots e).cursor = q.cursor := by
  have hs : q.compactBeforePush slots = q := by
    rw [compactBeforePush]
    split
    · exact compact_of_dispatching hd
    · rfl
  rw [push, hs, bulk_of_dispatching h hd]
  rfl

theorem prepare_cursor : (q.prepare slots).cursor = q.cursor := by
  have hp := bulk_of_dispatching h hd
  have hso : q.sortForDispatch = q := by
    obtain ⟨entries, i, c, pushes, ns, p, cancelable, ticket, count⟩ := q
    obtain rfl : ns = false := h.settled hp
    obtain rfl : p = true := hp
    rfl
  obtain ⟨e, r, hb, hr, -⟩ := h.dispatch ref hd
  have hc := isCancelled_eq_false slots
    ((h.live_cons hb).ticket e (mem_cons_self ..) ref hr).uncancelable
  have hs : (q.skipCancelled slots).cursor = q.cursor := by
    have hdr : q.entries.drop q.cursor = e :: r := hb
    simp [skipCancelled, hdr, hc]
  obtain ⟨hv, hsa⟩ := skipCancelled_valid slots h hp
  obtain ⟨-, hs', -, o, he⟩ := discardCancelledInsertions_spec slots hv _ le_rfl
  rw [prepare, hso]
  split
  · rw [compact_cursor ((hsa.trans hs').dispatchingTicket.trans hd), he]
    exact hs
  · rw [he]
    exact hs

end

end Dispatching

theorem valid_cleared {tickets : Tickets} {q : WorkQueue} (hd : q.dispatchingTicket = none) :
    Valid tickets { q with
      entries := [], currentInsertions := [], cursor := 0, pushesSinceCompaction := 0,
      needsSort := false, prepared := false, hasCancelable := false } := by
  have hs : Valid tickets start := valid_start
  refine { hs with idle := fun _ => ⟨rfl, rfl, hd⟩, settled := nofun, dispatch :=
    fun ref hr => ?_ }
  simp [hd] at hr

section Offers
variable {s : CancellationSlots} {tickets : Tickets} {q : WorkQueue} {e m x : Entry}
  {r : List Entry} {ref : ℕ}

/-- Nothing behind the front entry comes before the boundary. -/
theorem Valid.boundary_le (h : Valid tickets q) (hp : q.prepared = true) (hb : q.bulk = e :: r)
    (hx : x ∈ r ++ q.currentInsertions) : ∃ b, q.boundary = some b ∧ b.key ≤ x.key := by
  have hr : q.entries[q.cursor + 1]? = r.head? := by rw [← drop_succ_of_bulk hb, head?_drop]
  have hs : Sorted r := (hb ▸ h.sorted (h.settled hp)).tail
  have hh := h.heap
  have hft {f : Entry} {t : List Entry} (hs : Sorted (f :: t)) (hx : x ∈ f :: t) :
      f.key ≤ x.key := (mem_cons.mp hx).elim (fun h => h ▸ le_rfl) (rel_of_pairwise_cons hs)
  rw [boundary, hr]
  rcases hf : q.currentInsertions with _ | ⟨g, l⟩ <;> rcases r with _ | ⟨f, t⟩ <;>
    rw [hf] at hx hh <;> simp only [head?_nil, head?_cons]
  · simp at hx
  · exact ⟨f, rfl, hft hs (by simpa using hx)⟩
  · exact ⟨g, rfl, BinaryHeap.head_le hh hx⟩
  · have hg : x ∈ g :: l → g.key ≤ x.key := BinaryHeap.head_le hh
    refine ⟨_, rfl, ?_⟩
    split_ifs with hk <;> rcases mem_append.mp hx with hx | hx
    · exact (keyLess_iff.mp hk).le.trans (hft hs hx)
    · exact hg hx
    · exact hft hs hx
    · exact (keyLess_eq_false_iff.mp (by simpa using hk)).trans (hg hx)

/-- What a dispatch is offered comes before everything behind the front entry. -/
theorem Valid.offered_le (h : Valid tickets q) (hp : q.prepared = true) (hb : q.bulk = e :: r)
    (hr : e.ticketRef = some ref)
    (hm : m ∈ (tickets ref).remaining.take (q.offered (tickets ref)))
    (hx : x ∈ tasksOf s tickets (r ++ q.currentInsertions)) : m.key ≤ x.key := by
  have hl := h.live_cons hb
  obtain ⟨y, hy, hx⟩ := mem_flatMap.mp hx
  have hy := mem_of_mem_filter hy
  obtain ⟨b, hbo, hle⟩ := h.boundary_le hp hb hy
  refine le_trans ?_ (hle.trans (hl.key_le (mem_cons_of_mem _ hy) x hx))
  -- the last member that is offered is before the boundary, and the members are sorted
  have hs := (hl.ticket e (mem_cons_self ..) ref hr).sorted
  simp only [offered, hbo] at hm
  rw [← prefix_iff_eq_take.mp ( rdropWhile_prefix ..)] at hm
  have hne := ne_nil_of_mem hm
  have hla := rdropWhile_last_not (fun m => !keyLess m b) _ hne
  exact ((hs.sublist ( rdropWhile_prefix ..).sublist).rel_getLast hm).trans
    (keyLess_iff.mp (by simpa using hla)).le

end Offers

end WorkQueue

namespace World

variable {w : World} {op : Op} {w' : World} {d : WorkQueue.BatchTicketDispatch}
  {ticket : BatchTicket}

theorem Inv.keep (h : w.Inv) (hdi : w'.dispatch = w.dispatch)
    (hv : w'.queue.Valid w'.tickets) (hti : w'.queue.dispatchingTicket = w.queue.dispatchingTicket)
    (hco : w'.queue.dispatchingTicketCount = w.queue.dispatchingTicketCount)
    (hcu : ∀ ref, w.queue.dispatchingTicket = some ref → w'.queue.cursor = w.queue.cursor) :
    w'.Inv := by
  refine ⟨hv, fun hn => hti.trans (h.idle (hdi.symm.trans hn)), fun d hd => ?_⟩
  obtain ⟨ht, he, hc, hp⟩ := h.running d (hdi.symm.trans hd)
  exact ⟨hti.trans ht, he.trans (hcu _ ht).symm, hc.trans hco.symm, hp⟩

theorem Inv.outside (hdi : w'.dispatch = none)
    (hv : w'.queue.Valid w'.tickets) (ht : w'.queue.dispatchingTicket = none) : w'.Inv :=
  ⟨hv, fun _ => ht, fun d hd => by simp [hdi] at hd⟩

theorem Inv.push {entry : Entry} {slots : CancellationSlots} {tickets : Tickets} (h : w.Inv)
    (hv : w.queue.Valid tickets) (hj : WorkQueue.Joins tickets w.queue.live entry) :
    World.Inv { w with
      slots := slots, tickets := tickets, queue := w.queue.push slots entry } := by
  obtain ⟨hp, ht, hc, -⟩ := push_valid slots hv hj
  exact h.keep rfl hp ht hc fun ref hd => push_cursor h.valid hd

theorem Inv.finish {n : ℕ} {left : WorkQueue × Tickets} (h : w.Inv) (hd : w.dispatch = some d)
    (hl : left.2 = advance w.tickets d.ticket n ∧ left.1.finishBatchTicketDispatch =
      { w.queue.leaveFront (advance w.tickets d.ticket n) d.ticket with
        dispatchingTicket := none, dispatchingTicketCount := 0 }) : (w.finish left).Inv := by
  obtain ⟨ht, -⟩ := h.running d hd
  obtain ⟨e, r, hb, hr, -⟩ := h.valid.dispatch d.ticket ht
  refine .outside rfl ?_ ?_
  · simp only [World.finish, hl.1, hl.2]
    exact (leaveFront_valid w.slots n 0 h.valid (bulk_of_dispatching h.valid ht) hb hr).1
  · simp [World.finish, hl.2]

theorem Inv.finish_leave {n : ℕ} (h : w.Inv) (hd : w.dispatch = some d) :
    (w.finish (w.queue.leave w.tickets d n)).Inv :=
  h.finish hd (WorkQueue.finish_leave n h.valid (h.running d hd).1 (h.running d hd).2.1)

theorem Inv.finish_alone (h : w.Inv) (hd : w.dispatch = some d) :
    (w.finish (w.queue, w.tickets)).Inv :=
  h.finish hd (finish_eq h.valid (h.running d hd).1)

theorem Inv.gain {ref : ℕ} {m : List Entry} (h : w.Inv)
    (hid : w.queue.prepared = false) (hin : ∃ x ∈ w.queue.live, x.ticketRef = some ref)
    (hc : ticket.cursor = 0) (hg : ticket.remaining.Perm ((w.tickets ref).remaining ++ m))
    (hs : Sorted ticket.remaining) (hp : Plain m) : (w.gain ref ticket).Inv := by
  obtain ⟨x, hx, hre⟩ := hin
  obtain ⟨q', hr, hv, hd, -⟩ := gain_valid w.slots h.valid hid hx hre hc hg hs hp
  have hn : w.dispatch = none := by
    cases hw : w.dispatch with
    | none => rfl
    | some d =>
      have ho := bulk_of_dispatching h.valid (h.running d hw).1
      simp [hid] at ho
  refine .outside hn ?_ ?_
  · simpa [World.gain, hr] using hv
  · simpa [World.gain, hr] using hd

theorem gainMembers_remaining (m : List Entry)
    (hcu : ticket.cursor = 0) (hc : ticket.compact = false) :
    (WorkQueue.gainMembers ticket m).remaining.Perm (ticket.remaining ++ m) ∧
      Sorted (WorkQueue.gainMembers ticket m).remaining := by
  simp only [BatchTicket.remaining, BatchTicket.memberEntries, gainMembers, hc, hcu]
  exact ⟨sortEntries_perm _, sortEntries_sorted _⟩

theorem gainCompactMembers_remaining (m : List CompactMember)
    (hcu : ticket.cursor = 0) (hc : ticket.compact = true) :
    (WorkQueue.gainCompactMembers ticket m).remaining.Perm
        (ticket.remaining ++ m.map ticket.fallbackMember) ∧
      Sorted (WorkQueue.gainCompactMembers ticket m).remaining := by
  simp only [BatchTicket.remaining, BatchTicket.memberEntries, gainCompactMembers,
    hc, hcu, drop_zero, if_true]
  refine ⟨?_, pairwise_map.mpr ?_⟩
  · rw [← map_append]
    exact (perm_insertionSort ..).map _
  · exact pairwise_insertionSort (fun a b : CompactMember =>
      toLex (a.order, a.sequence) ≤ toLex (b.order, b.sequence)) _

theorem Inv.beginDispatch {l : ℕ} (h : w.Inv) (hno : w.dispatch = none) :
    (w.step (.beginDispatch l)).Inv := by
  obtain ⟨hv, hs, -, -⟩ := prepare_spec w.slots h.valid
  have hd : (w.queue.prepare w.slots).dispatchingTicket = none :=
    hs.dispatchingTicket.trans (h.idle hno)
  have hq : (w.queue.nextBatchTicketDispatch w.slots w.tickets).1 = w.queue.prepare w.slots := rfl
  simp only [World.step]
  split
  · next q offered hn =>
    rw [hn] at hq
    obtain rfl : q = w.queue.prepare w.slots := hq
    rcases Nat.eq_zero_or_pos (min offered.count l) with hz | hp
    · simp only [hz]
      exact .outside hno hv hd
    · obtain ⟨q', hb, hv', ht, he, hc⟩ := begin_valid h.valid
        (congrArg Prod.snd hn) hp (Nat.min_le_left ..)
      simp only [hb]
      refine ⟨hv', nofun, fun d hd => ?_⟩
      obtain rfl := Option.some.inj hd
      exact ⟨ht, he, hc.symm, hp⟩
  · next q hn =>
    rw [hn] at hq
    obtain rfl : q = w.queue.prepare w.slots := hq
    exact .outside hno hv hd

theorem Inv.step (h : w.Inv) (hp : w.Permits op) : (w.step op).Inv := by
  cases op with
  | push entry =>
    exact h.push h.valid fun ref hre => by simp [show entry.ticketRef = none from hp] at hre
  | pushCancelable o sequence callback => exact h.push h.valid nofun
  | pushTicket ref ticket =>
    obtain ⟨hf, hn, hs, hpl⟩ := hp
    have hva : w.queue.Valid (update w.tickets ref ticket) := by
      have hv := h.valid
      refine { hv with live := hv.live.update_of_ne hf, dispatch := fun r hr => ?_ }
      obtain ⟨e, rest, hb, hre, hcn⟩ := hv.dispatch r hr
      have hn : r ≠ ref := by
        rintro rfl
        exact hf e (by simp [live, hb]) hre
      exact ⟨e, rest, hb, hre, by rwa [update_of_ne hn]⟩
    refine h.push hva fun r hr => ?_
    obtain rfl : ref = r := by
      rw [showMember_ticketRef] at hr
      exact Option.some.inj hr
    rw [update_self]
    exact ⟨showMember_valid rfl hn hs hpl, hf⟩
  | cancel identity => exact h.keep rfl h.valid rfl rfl fun _ _ => rfl
  | compact =>
    obtain ⟨hva, hsa⟩ := compact_valid w.slots h.valid
    exact h.keep rfl hva hsa.dispatchingTicket hsa.dispatchingTicketCount
      fun ref hd => compact_cursor hd
  | prepare =>
    obtain ⟨hva, hsa, -, -⟩ := prepare_spec w.slots h.valid
    exact h.keep rfl hva hsa.dispatchingTicket hsa.dispatchingTicketCount
      fun ref hd => prepare_cursor h.valid hd
  | compactBatchableGroups ref v =>
    obtain ⟨hva, hd, -⟩ := compactBatchableGroups_valid w.slots v h.valid (h.idle hp.1) hp.2
    exact .outside hp.1 hva hd
  | gainMembers ref members =>
    obtain ⟨hid, hin, hc, hco, hpl⟩ := hp
    obtain ⟨hpe, hs⟩ := gainMembers_remaining members hc hco
    exact h.gain hid hin hc hpe hs hpl
  | gainCompactMembers ref members =>
    obtain ⟨hid, hin, hc, hco⟩ := hp
    obtain ⟨hpe, hs⟩ := gainCompactMembers_remaining members hc hco
    refine h.gain hid hin hc hpe hs fun m hm => ?_
    obtain ⟨member, -, rfl⟩ := mem_map.mp hm
    exact ⟨rfl, rfl⟩
  | beginDispatch l => exact h.beginDispatch hp
  | consume count =>
    simp only [World.step]
    split
    · next d hd =>
      split
      · exact h.finish_leave hd
      · exact h.finish_alone hd
    · exact h
  | takeFallback =>
    simp only [World.step]
    split
    · next d hd => exact h.finish_leave hd
    · exact h
  | finish =>
    simp only [World.step]
    split
    · next hd =>
      obtain ⟨d, hd⟩ := Option.isSome_iff_exists.mp hd
      exact h.finish_alone hd
    · exact h
  | pop =>
    have hn : w.queue.logical w.slots w.tickets ≠ [] := fun hni => by
      exact absurd ((empty_iff h.valid).mpr hni) (Bool.not_eq_true _ ▸ hp.2)
    obtain ⟨p, hpo, hva, hd, -⟩ :=
      pop_spec w.slots h.valid (h.idle hp.1) hn
    simp only [World.step, hpo]
    exact .outside hp.1 hva hd
  | clearConsumed =>
    simp only [World.step, clearConsumed]
    split
    · exact .outside hp (valid_cleared (h.idle hp)) (h.idle hp)
    · exact h

theorem start_inv : start.Inv := .outside rfl valid_start rfl

theorem Inv.run {ops : List Op} (h : w.Inv) (hp : w.PermitsAll ops) : (w.run ops).Inv := by
  induction ops generalizing w with
  | nil => exact h
  | cons op ops ih => exact ih (h.step hp.1) hp.2

section Logical

theorem Inv.push_logical {entry : Entry} (h : w.Inv) (hp : entry.ticketRef = none)
    (hc : entry.isCancelled w.slots = false) :
    (w.step (.push entry)).logical = entry ::ₘ w.logical := by
  have hjoins : WorkQueue.Joins w.tickets w.queue.live entry := fun ref href => by simp [hp] at href
  obtain ⟨-, hticket, hcount, hpending⟩ := push_valid w.slots h.valid hjoins
  have hqueued : (w.queue.push w.slots entry).queued w.tickets = w.queue.queued w.tickets := by
    funext e
    rw [queued, queued, hticket, hcount]
  have hself : w.queue.queued w.tickets entry = [entry] := by
    rw [queued]
    cases htask : entry.task <;> simp_all [Entry.ticketRef]
  refine Multiset.coe_eq_coe.mpr ((hpending.flatMap_right _).trans (.of_eq ?_))
  change flatMap ((w.queue.push w.slots entry).queued w.tickets) _ = _
  simp [hqueued, hc, hself, WorkQueue.logical]

theorem Inv.gain_logical {ref : ℕ} {members : List Entry} (h : w.Inv)
    (hid : w.queue.prepared = false) (hin : ∃ x ∈ w.queue.live, x.ticketRef = some ref)
    (hc : ticket.cursor = 0) (hg : ticket.remaining.Perm ((w.tickets ref).remaining ++ members))
    (hs : Sorted ticket.remaining) (hp : Plain members) :
    (w.gain ref ticket).logical = ↑members + w.logical := by
  obtain ⟨x, hx, hre⟩ := hin
  obtain ⟨q', hr, -, -, hlogical⟩ := gain_valid w.slots h.valid hid hx hre hc hg hs hp
  rw [logical, World.gain, hr]
  exact Multiset.coe_eq_coe.mpr hlogical

theorem isCancelled_release {slots : CancellationSlots} {e : Entry} (identity : Identity)
    (h : e.isCancelled slots = true) : e.isCancelled (slots.release identity) = true := by
  unfold Entry.isCancelled at *
  cases hid : e.cancellation with
  | none => simp [hid] at h
  | some own =>
    simp only [hid, Bool.not_eq_true'] at h ⊢
    by_cases hactive : slots.active identity = true
    · rw [CancellationSlots.release, if_pos hactive]
      simp only [CancellationSlots.active] at h ⊢
      rcases eq_or_ne own.slot identity.slot with heq | hne
      · rw [heq, List.getElem?_set_self']
        cases slots.slots[identity.slot]? <;> simp
      · rwa [List.getElem?_set_ne hne.symm]
    · rwa [CancellationSlots.release, if_neg hactive]

theorem Inv.cancel_logical (h : w.Inv) (identity : Identity) : (w.step (.cancel identity)).logical =
      w.logical.filter fun e => e.isCancelled (w.slots.release identity) = false := by
  have hlist (live : List Entry) (hlive : ∀ e ∈ live, e ∈ w.queue.live) :
      (live.filter fun e => !e.isCancelled (w.slots.release identity)).flatMap
          (w.queue.queued w.tickets) =
        ((live.filter fun e => !e.isCancelled w.slots).flatMap (w.queue.queued w.tickets)).filter
          fun e => e.isCancelled (w.slots.release identity) = false := by
    induction live with
    | nil => rfl
    | cons e live ih =>
      have hrest := ih fun x hx => hlive x (mem_cons_of_mem e hx)
      have hshown : ∀ m ∈ w.queue.queued w.tickets e,
          m.isCancelled (w.slots.release identity) = e.isCancelled (w.slots.release identity) := by
        intro m hm
        rw [queued] at hm
        split at hm
        · next ref htask =>
          have hvalid := h.valid.live.ticket e (hlive e (mem_cons_self ..)) ref
            (by rw [Entry.ticketRef, htask])
          have hmember : m ∈ (w.tickets ref).remaining := by
            split_ifs at hm
            · exact mem_of_mem_drop hm
            · exact hm
          rw [isCancelled_eq_false _ hvalid.uncancelable,
            isCancelled_eq_false _ (hvalid.members m hmember).1]
        · rw [mem_singleton.mp hm]
      by_cases hnow : e.isCancelled (w.slots.release identity) = true
      · have hgone : (w.queue.queued w.tickets e).filter
            (fun e => !e.isCancelled (w.slots.release identity)) = [] :=
          filter_eq_nil_iff.mpr fun m hm => by simp [hshown m hm, hnow]
        by_cases hbefore : e.isCancelled w.slots = true
        · simpa [hnow, hbefore] using hrest
        · simpa [hnow, hbefore, hgone] using hrest
      · have hbefore : e.isCancelled w.slots = false :=
          Bool.eq_false_iff.mpr fun hc => hnow (isCancelled_release identity hc)
        have hall : (w.queue.queued w.tickets e).filter
            (fun e => !e.isCancelled (w.slots.release identity)) = w.queue.queued w.tickets e :=
          filter_eq_self.mpr fun m hm => by simp [hshown m hm, hnow]
        simpa [hnow, hbefore, hall] using hrest
  exact congrArg (fun tasks : List Entry => (tasks : Multiset Entry)) (hlist _ fun _ he => he)

theorem Inv.consume_logical {n : ℕ} (h : w.Inv) (hd : w.dispatch = some d) (hn : n ≤ d.count) :
    ↑((w.tickets d.ticket).remaining.take n) + (w.step (.consume n)).logical =
      (w.queue.allTasks w.slots w.tickets : Multiset Entry) := by
  obtain ⟨ht, hentry, -⟩ := h.running d hd
  obtain ⟨e, r, hb, hr, -⟩ := h.valid.dispatch d.ticket ht
  obtain ⟨htickets, hqueue⟩ := WorkQueue.finish_leave n h.valid ht hentry
  simp only [World.step, hd, if_pos hn]
  rw [logical, World.finish, htickets, hqueue]
  exact Multiset.coe_eq_coe.mpr
    (leaveFront_valid w.slots n 0 h.valid (bulk_of_dispatching h.valid ht) hb hr).2

theorem Inv.begin_logical (h : w.Inv) (hno : w.dispatch = none) (limit : ℕ) :
    ((w.step (.beginDispatch limit)).queue.allTasks w.slots w.tickets : Multiset Entry) =
      w.logical := by
  obtain ⟨-, hs, -, -⟩ := prepare_spec w.slots h.valid
  have hprepared : ((w.queue.prepare w.slots).allTasks w.slots w.tickets : Multiset Entry) =
      w.logical := by
    rw [logical, ← Multiset.coe_eq_coe.mpr (hs.logical w.tickets),
      logical_eq (hs.dispatchingTicket.trans (h.idle hno))]
    rfl
  rw [← hprepared]
  have hq : (w.queue.nextBatchTicketDispatch w.slots w.tickets).1 = w.queue.prepare w.slots := rfl
  simp only [World.step]
  split
  · next q offered hn =>
    rw [hn] at hq
    obtain rfl : q = w.queue.prepare w.slots := hq
    split
    · next hbegin =>
      unfold beginBatchTicketDispatch at hbegin
      split_ifs at hbegin
      cases hbegin
      rfl
    · rfl
  · next q hn =>
    rw [hn] at hq
    obtain rfl : q = w.queue.prepare w.slots := hq
    rfl

end Logical

/-- In every reachable state, `empty` says whether an uncancelled logical task is in the queue,
and outside a dispatch the next `pop` takes exactly the least one. -/
theorem pop_takes_least (ops : List Op) (hops : start.PermitsAll ops) :
    let w := start.run ops
    (w.queue.empty w.slots w.tickets = true ↔ w.logical = 0) ∧
      (w.dispatch = none → w.logical ≠ 0 →
        ∃ popped, w.queue.pop w.slots w.tickets = some popped ∧
          popped.entry ∈ w.logical ∧ (∀ m ∈ w.logical, popped.entry.key ≤ m.key) ∧
          (w.step .pop).logical = w.logical.erase popped.entry) := by
  intro w
  have h : w.Inv := start_inv.run hops
  refine ⟨?_, fun hd hne => ?_⟩
  · rw [empty_iff h.valid, logical, Multiset.coe_eq_zero]
  · have hne' : w.queue.logical w.slots w.tickets ≠ [] := by
      rwa [logical, ne_eq, Multiset.coe_eq_zero] at hne
    obtain ⟨popped, hpop, -, -, hleast, hperm⟩ :=
      pop_spec w.slots h.valid (h.idle hd) hne'
    have hstep : w.step .pop =
        { w with queue := popped.queue, tickets := popped.tickets } := by
      simp [World.step, hpop]
    refine ⟨popped, hpop, hperm.mem_iff.mp (mem_cons_self ..), hleast, ?_⟩
    have hcons : w.logical = popped.entry ::ₘ (w.step .pop).logical := by
      rw [hstep]
      exact (Multiset.coe_eq_coe.mpr hperm).symm
    rw [hcons, Multiset.erase_cons_head]

def overtaken : List Op :=
  [.push ⟨4, 0, .task (.task 0), none⟩,
    .pushTicket 0
      ⟨[], [⟨1, 1, 10⟩, ⟨3, 2, 11⟩, ⟨5, 3, 12⟩], true, 0, ⟨1, 1⟩, 7⟩,
    .pushCancelable 2 4 (.task 1), .gainCompactMembers 0 [⟨2, 5, 13⟩],
    .cancel ⟨0, 1⟩, .prepare,
    .beginDispatch 1, .push ⟨3, 6, .task (.task 2), none⟩, .consume 1]

theorem overtaken_pop_takes_least :
    start.PermitsAll overtaken ∧ (start.run overtaken).dispatch = none ∧
      (start.run overtaken).logical.card = 5 ∧
      ∃ popped, (start.run overtaken).queue.pop (start.run overtaken).slots
          (start.run overtaken).tickets = some popped ∧
        popped.entry ∈ (start.run overtaken).logical ∧
        (∀ m ∈ (start.run overtaken).logical, popped.entry.key ≤ m.key) ∧
        ((start.run overtaken).step .pop).logical =
          (start.run overtaken).logical.erase popped.entry := by
  have hops : start.PermitsAll overtaken := by decide +kernel
  have hcard : (start.run overtaken).logical.card = 5 := by decide +kernel
  have hd : (start.run overtaken).dispatch = none := by decide +kernel
  exact ⟨hops, hd, hcard, (pop_takes_least overtaken hops).2 hd fun h => by simp [h] at hcard⟩

/-- What the other operations do to the logical tasks: a push adds its entry, compaction, sorting
and grouping change nothing, gained members are added, a cancellation takes away the tasks of its
handle, and a dispatch the members that its executor consumes. -/
theorem steps_change_logical (ops : List Op) (hops : start.PermitsAll ops) :
    let w := start.run ops
    (∀ entry, w.Permits (.push entry) → entry.isCancelled w.slots = false →
      (w.step (.push entry)).logical = entry ::ₘ w.logical) ∧
    (w.step .compact).logical = w.logical ∧ (w.step .prepare).logical = w.logical ∧
    (∀ ref vacant, w.Permits (.compactBatchableGroups ref vacant) →
      (w.step (.compactBatchableGroups ref vacant)).logical = w.logical) ∧
    (∀ ref members, w.Permits (.gainMembers ref members) →
      (w.step (.gainMembers ref members)).logical = ↑members + w.logical) ∧
    (∀ ref members, w.Permits (.gainCompactMembers ref members) →
      (w.step (.gainCompactMembers ref members)).logical =
        ↑(members.map (w.tickets ref).fallbackMember) + w.logical) ∧
    (∀ identity, (w.step (.cancel identity)).logical =
      w.logical.filter fun e => e.isCancelled (w.slots.release identity) = false) ∧
    ∀ limit d n, w.dispatch = none → (w.step (.beginDispatch limit)).dispatch = some d →
      n ≤ d.count → ↑(((w.step (.beginDispatch limit)).tickets d.ticket).remaining.take n) +
        ((w.step (.beginDispatch limit)).step (.consume n)).logical = w.logical := by
  intro w
  have h : w.Inv := start_inv.run hops
  refine ⟨fun entry hp hc => h.push_logical hp hc, ?_, ?_, fun ref vacant hp => ?_,
    fun ref members hp => ?_, fun ref members hp => ?_, h.cancel_logical,
    fun limit d n hno hd hn => ?_⟩
  · exact Multiset.coe_eq_coe.mpr ((compact_valid w.slots h.valid).2.logical w.tickets)
  · exact Multiset.coe_eq_coe.mpr ((prepare_spec w.slots h.valid).2.1.logical w.tickets)
  · exact congrArg (fun tasks : List Entry => (tasks : Multiset Entry))
      (compactBatchableGroups_valid w.slots vacant h.valid (h.idle hp.1) hp.2).2.2
  · obtain ⟨hid, hin, hc, hco, hpl⟩ := hp
    obtain ⟨hpe, hs⟩ := gainMembers_remaining members hc hco
    exact h.gain_logical hid hin hc hpe hs hpl
  · obtain ⟨hid, hin, hc, hco⟩ := hp
    obtain ⟨hpe, hs⟩ := gainCompactMembers_remaining members hc hco
    refine h.gain_logical hid hin hc hpe hs fun m hm => ?_
    obtain ⟨member, -, rfl⟩ := mem_map.mp hm
    exact ⟨rfl, rfl⟩
  · have hbegun := h.beginDispatch (l := limit) hno
    have hkept : (w.step (.beginDispatch limit)).slots = w.slots ∧
        (w.step (.beginDispatch limit)).tickets = w.tickets := by
      simp only [World.step]
      split
      · split <;> exact ⟨rfl, rfl⟩
      · exact ⟨rfl, rfl⟩
    rw [← h.begin_logical hno limit, ← hkept.1, ← hkept.2]
    exact hbegun.consume_logical hd hn

/-- A dispatch is offered a run of the least logical tasks, in order. -/
theorem offer_is_least (ops : List Op) (hops : start.PermitsAll ops) (d : BatchTicketDispatch)
    (hoffer : ((start.run ops).queue.nextBatchTicketDispatch (start.run ops).slots
      (start.run ops).tickets).2 = some d) :
    let w := start.run ops
    let offered := (w.tickets d.ticket).remaining.take d.count
    offered.length = d.count ∧ Sorted offered ∧
      ∃ rest, w.logical = offered + rest ∧ ∀ m ∈ offered, ∀ x ∈ rest,
      m.key ≤ x.key := by
  intro w
  have h : w.Inv := start_inv.run hops
  obtain ⟨e, r, hb, hr, -, hd, hc⟩ := nextBatchTicketDispatch_spec hoffer
  have hcount : d.count = (w.queue.prepare w.slots).offered (w.tickets d.ticket) := by
    simp only [nextBatchTicketDispatch, hd, getElem?_of_bulk hb, hr] at hoffer
    split at hoffer
    · cases hoffer
    · exact (congrArg (·.count) (Option.some.inj hoffer)).symm
  obtain ⟨hv, hs, hp, hre, -⟩ := prepare_spec w.slots h.valid
  set q := w.queue.prepare w.slots
  have hso := ((hv.live_cons hb).ticket e (mem_cons_self ..) _ hr).sorted
  refine ⟨by simpa using hc, hso.take, ↑((w.tickets d.ticket).remaining.drop d.count ++
    tasksOf w.slots w.tickets (r ++ q.currentInsertions)), ?_, fun m hm x hx => ?_⟩
  · have hall := allTasks_of_bulk w.tickets hb (hre e (by simp [hb]))
    rw [Entry.tasks_of_ref hr, ← take_append_drop d.count (BatchTicket.remaining _),
      append_assoc] at hall
    have := (hs.logical w.tickets).symm
    rw [logical_eq hd] at this
    exact Multiset.coe_eq_coe.mpr (hall ▸ this)
  · rcases mem_append.mp (Multiset.mem_coe.mp hx) with hx | hx
    · rw [← take_append_drop d.count (w.tickets d.ticket).remaining] at hso
      exact (pairwise_append.mp hso).2.2 m hm x hx
    · exact hv.offered_le hp hb hr (hcount ▸ hm) hx

theorem overtaken_offer : start.PermitsAll (overtaken.take 2) ∧
    ((start.run (overtaken.take 2)).tickets 0).remaining.length = 3 ∧
      Sorted (((start.run (overtaken.take 2)).tickets 0).remaining.take 2) := by
  have hops : start.PermitsAll (overtaken.take 2) := by decide +kernel
  exact ⟨hops, by decide, (offer_is_least _ hops ⟨0, 0, 2⟩ (by decide +kernel)).2.1⟩

end World

end FsimRuntime.Queue
