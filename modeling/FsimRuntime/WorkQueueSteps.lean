import FsimRuntime.WorkQueueInvariant

/-!
# Operations on a work queue

Every operation keeps the queue valid, and each is described by what it does
to the logical tasks.
-/

namespace FsimRuntime.Queue
open List Entry Function
open BinaryHeap (Ordered)

variable {s : CancellationSlots} {tickets : Tickets} {q : WorkQueue} {e e' : Entry} {ref : ℕ}
  {l rest : List Entry}

def Entry.tasks (tickets : Tickets) (e : Entry) : List Entry :=
  match e.ticketRef with
  | some ref => (tickets ref).remaining
  | none => [e]

theorem Entry.tasks_of_ref (hr : e.ticketRef = some ref) :
    e.tasks tickets = (tickets ref).remaining := by rw [tasks, hr]

theorem Entry.tasks_of_none (hr : e.ticketRef = none) : e.tasks tickets = [e] := by
  rw [tasks, hr]

variable {ticket : BatchTicket}

theorem Entry.tasks_update (hre : e.ticketRef ≠ some ref) :
    e.tasks (update tickets ref ticket) = e.tasks tickets := by
  cases hr : e.ticketRef with
  | none => rw [tasks_of_none hr, tasks_of_none hr]
  | some r =>
    have hn : r ≠ ref := fun he => hre (he ▸ hr)
    rw [tasks_of_ref hr, tasks_of_ref hr, update_of_ne hn]

/-- The tasks that the entries which are not cancelled stand for. -/
def tasksOf (slots : CancellationSlots) (tickets : Tickets) (l : List Entry) : List Entry :=
  (l.filter fun e => !e.isCancelled slots).flatMap (Entry.tasks tickets)

theorem tasksOf_update (hl : ∀ x ∈ l, x.ticketRef ≠ some ref) :
    tasksOf s (update tickets ref ticket) l = tasksOf s tickets l :=
  flatMap_congr fun x hx => tasks_update (hl x (mem_of_mem_filter hx))

theorem tasksOf_perm {l' : List Entry} (hl : l.Perm l') :
    (tasksOf s tickets l).Perm (tasksOf s tickets l') := (hl.filter _).flatMap_right _

theorem tasksOf_cons (hc : e.isCancelled s = false) :
    tasksOf s tickets (e :: l) = e.tasks tickets ++ tasksOf s tickets l := by
  rw [tasksOf, filter_cons, hc]
  rfl

/-- The entry of a ticket shows another state of it. -/
theorem LiveValid.replace (s : CancellationSlots) (h : LiveValid tickets (e :: rest))
    (hr : e.ticketRef = some ref) (hr' : e'.ticketRef = some ref) (hv : TicketValid e' ticket)
    (hp : l.Perm (e' :: rest)) : LiveValid (update tickets ref ticket) l ∧
      (tasksOf s (update tickets ref ticket) l).Perm
        (ticket.remaining ++ tasksOf s tickets rest) := by
  refine ⟨(h.cons_update hr hr' hv).of_perm hp, (tasksOf_perm hp).trans ?_⟩
  rw [tasksOf_cons (isCancelled_eq_false s hv.uncancelable), tasks_of_ref hr', update_self,
    tasksOf_update (h.ref_ne hr)]

namespace WorkQueue

theorem queued_eq_tasks (hd : q.dispatchingTicket = none) :
    q.queued tickets = Entry.tasks tickets := by
  funext e
  rw [queued, tasks, ticketRef]
  cases e.task <;> simp [hd]

theorem logical_eq (hd : q.dispatchingTicket = none) :
    q.logical s tickets = tasksOf s tickets q.live := by
  rw [logical, queued_eq_tasks hd]
  rfl

end WorkQueue

theorem LiveValid.key_le {live : List Entry} (h : LiveValid tickets live) (he : e ∈ live) :
    ∀ m ∈ e.tasks tickets, e.key ≤ m.key := by
  intro m hm
  cases hr : e.ticketRef with
  | none =>
    rw [tasks_of_none hr] at hm
    rw [mem_singleton.mp hm]
  | some ref =>
    rw [tasks_of_ref hr] at hm
    have hv := h.ticket e he ref hr
    have hsh := hv.shown
    have hs := hv.sorted
    cases hre : (tickets ref).remaining with
    | nil => simp [hre] at hm
    | cons first o =>
      rw [hre] at hm hsh hs
      have hk : first.key = e.key := Option.some.inj hsh
      rcases mem_cons.mp hm with rfl | hm
      · exact hk.ge
      · exact hk ▸ rel_of_pairwise_cons hs hm

section Members
open WorkQueue (advance showMember)
variable {ticket : BatchTicket} {n : ℕ}

theorem remaining_advance : ({ ticket with cursor := ticket.cursor + n } : BatchTicket).remaining =
      ticket.remaining.drop n := by
  simp only [BatchTicket.remaining, drop_drop]
  rfl

theorem cursor_lt_count_iff : ticket.cursor < ticket.count ↔ ticket.remaining ≠ [] := by
  rw [BatchTicket.remaining, BatchTicket.count, ne_eq, drop_eq_nil_iff, not_le]

theorem showMember_ticketRef : (showMember e ticket).ticketRef = e.ticketRef := by
  rw [showMember]
  split <;> rfl

theorem showMember_key {m : Entry} {members : List Entry} (h : ticket.remaining = m :: members) :
    (showMember e ticket).key = m.key := by
  simp only [showMember, h]
  rfl

theorem showMember_cancellation : (showMember e ticket).cancellation = e.cancellation := by
  rw [showMember]
  split <;> rfl

theorem showMember_valid (hc : e.cancellation = none) (hn : ticket.remaining ≠ [])
    (hs : Sorted ticket.remaining)
    (hm : ∀ m ∈ ticket.remaining, m.cancellation = none ∧ m.ticketRef = none) :
    TicketValid (showMember e ticket) ticket := by
  obtain ⟨m, members, hr⟩ := exists_cons_of_ne_nil hn
  refine ⟨showMember_cancellation.trans hc, ?_, hs, hm⟩
  rw [showMember_key hr, hr]
  rfl

theorem TicketValid.advance (h : TicketValid e ticket) (hn : ticket.remaining.drop n ≠ []) :
    TicketValid (showMember e { ticket with cursor := ticket.cursor + n })
      { ticket with cursor := ticket.cursor + n } := by
  rw [← remaining_advance] at hn
  refine showMember_valid h.uncancelable hn ?_ ?_ <;> rw [remaining_advance]
  · exact h.sorted.sublist (drop_sublist ..)
  · exact fun x hx => h.members x ((drop_sublist ..).subset hx)

/-- The entry of a ticket leaves the queue with the last member of the ticket. -/
theorem LiveValid.advanced (s : CancellationSlots) (n : ℕ) (h : LiveValid tickets (e :: rest))
    (hr : e.ticketRef = some ref)
    (hp : l.Perm (if (advance tickets ref n ref).cursor <
        (advance tickets ref n ref).count then
      showMember e (advance tickets ref n ref) :: rest else rest)) :
    LiveValid (advance tickets ref n) l ∧
      (tasksOf s (advance tickets ref n) l).Perm
        ((tickets ref).remaining.drop n ++ tasksOf s tickets rest) := by
  have hs : advance tickets ref n ref =
      { tickets ref with cursor := (tickets ref).cursor + n } := update_self ..
  rw [hs] at hp
  split_ifs at hp with hc <;> rw [cursor_lt_count_iff, remaining_advance] at hc
  · rw [← remaining_advance]
    exact h.replace s hr (showMember_ticketRef.trans hr)
      ((h.ticket e (mem_cons_self ..) ref hr).advance hc) hp
  · rw [not_not.mp hc, nil_append, ← tasksOf_update (h.ref_ne hr)]
    exact ⟨((h.of_sublist (sublist_cons_self ..)).update_of_ne (h.ref_ne hr)).of_perm hp,
      tasksOf_perm hp⟩

end Members

namespace WorkQueue

section Rotate
variable {l r : List Entry}

theorem rotateInto_perm (entry : Entry) (l : List Entry) :
    (rotateInto entry l).Perm (entry :: l) := by
  induction l with
  | nil => exact .refl _
  | cons head r ih =>
    rw [rotateInto]
    split
    · exact .refl _
    · exact (ih.cons _).trans (.swap ..)

theorem rotateInto_sorted (hl : Sorted l) : Sorted (rotateInto e l) := by
  induction l with
  | nil => exact pairwise_singleton ..
  | cons head r ih =>
    obtain ⟨hh, hr⟩ := pairwise_cons.mp hl
    rw [rotateInto]
    split
    · next hls =>
      have hle := (keyLess_iff.mp hls).le
      refine pairwise_cons.mpr ⟨fun x hx => ?_, hl⟩
      rcases mem_cons.mp hx with rfl | hx
      · exact hle
      · exact hle.trans (hh x hx)
    · next hls =>
      have hle := keyLess_eq_false_iff.mp (by simpa using hls)
      refine pairwise_cons.mpr ⟨fun x hx => ?_, ih hr⟩
      rcases mem_cons.mp ((rotateInto_perm e r).subset hx) with rfl | hx
      · exact hle
      · exact hh x hx

theorem drop_modify {n : ℕ} (f : Entry → Entry) (hl : l.drop n = e :: r) :
    (l.modify n f).drop n = f e :: r := by
  rw [drop_modify_of_ge _ _ _ _ le_rfl, hl, Nat.sub_self]
  rfl

theorem take_modify_self {n : ℕ} (f : Entry → Entry) : (l.modify n f).take n = l.take n := by
  rw [take_modify, modify_eq_self (by simp)]

theorem getElem?_of_bulk (hb : q.bulk = e :: r) : q.entries[q.cursor]? = some e := by
  rw [← head?_drop, ← bulk, hb]
  rfl

theorem drop_succ_of_bulk (hb : q.bulk = e :: r) : q.entries.drop (q.cursor + 1) = r := by
  rw [← tail_drop, ← bulk, hb]
  rfl

end Rotate

section Leave
variable {r : List Entry} {n : ℕ}

def allTasks (slots : CancellationSlots) (tickets : Tickets) (q : WorkQueue) : List Entry :=
  (q.pending slots).flatMap (Entry.tasks tickets)

def leaveFront (tickets : Tickets) (ref : ℕ) (q : WorkQueue) : WorkQueue :=
  if (tickets ref).cursor < (tickets ref).count then
    repositionFrontTicket { q with
      entries := q.entries.modify q.cursor (showMember · (tickets ref)) }
  else { q with cursor := q.cursor + 1 }

theorem Valid.of_prepared (hc : q.cursor ≤ q.entries.length) (hpr : q.prepared = true)
    (hso : q.needsSort = false) (hd : q.dispatchingTicket = none) (hs : Sorted q.bulk)
    (hh : Ordered Entry.key q.currentInsertions) (hl : LiveValid tickets q.live) :
    Valid tickets q :=
  ⟨hc, fun hp => by simp [hpr] at hp, fun _ => hso, fun _ => hs, hh, hl,
    fun ref hr => by simp [hd] at hr⟩

theorem allTasks_of_bulk (tickets : Tickets) (hb : q.bulk = e :: r) (hc : e.isCancelled s = false) :
    q.allTasks s tickets = e.tasks tickets ++ tasksOf s tickets (r ++ q.currentInsertions) := by
  rw [← tasksOf_cons hc, ← cons_append, ← hb]
  rfl

theorem cursor_lt_of_bulk (hb : q.bulk = e :: r) : q.cursor < q.entries.length := by
  by_contra hl
  rw [bulk, drop_eq_nil_of_le (by omega)] at hb
  cases hb

theorem leaveFront_eq (hc : q.cursor ≤ q.entries.length) (hb : q.bulk = e :: r)
    (hr : e.ticketRef = some ref) (hs : Sorted r) : ∃ entries c,
      q.leaveFront tickets ref = { q with entries := entries, cursor := c } ∧
      c ≤ entries.length ∧
      Sorted (entries.drop c) ∧
      (entries.drop c).Perm (if (tickets ref).cursor < (tickets ref).count then
        showMember e (tickets ref) :: r else r) := by
  rw [leaveFront]
  split_ifs
  · refine ⟨q.entries.take q.cursor ++ rotateInto (showMember e (tickets ref)) r, q.cursor, ?_,
      by simp [hc], ?_⟩
    · simp [repositionFrontTicket, drop_modify _ hb, showMember_ticketRef.trans hr,
        take_modify_self]
    · rw [drop_left' (by simpa using hc)]
      exact ⟨rotateInto_sorted hs, rotateInto_perm ..⟩
  · refine ⟨q.entries, q.cursor + 1, rfl, cursor_lt_of_bulk hb, ?_⟩
    rw [drop_succ_of_bulk hb]
    exact ⟨hs, .refl _⟩

theorem Valid.live_cons (h : Valid tickets q) (hb : q.bulk = e :: r) :
    LiveValid tickets (e :: (r ++ q.currentInsertions)) := by
  have := h.live
  rwa [WorkQueue.live, hb] at this

theorem leaveFront_valid (s : CancellationSlots) (n c : ℕ) (h : Valid tickets q)
    (hp : q.prepared = true) (hb : q.bulk = e :: r) (hr : e.ticketRef = some ref) :
    let tickets' := advance tickets ref n
    let q' := { q.leaveFront tickets' ref with
      dispatchingTicket := none, dispatchingTicketCount := c }
    Valid tickets' q' ∧ ((tickets ref).remaining.take n ++ q'.logical s tickets').Perm
      (q.allTasks s tickets) := by
  intro tickets' q'
  have hli := h.live_cons hb
  have hv := hli.ticket e (mem_cons_self ..) ref hr
  obtain ⟨entries, i, hq, hle, hsb, hpe⟩ := @leaveFront_eq tickets' _ _ _ _ h.cursor_le hb hr
    (List.Pairwise.of_cons (hb ▸ h.sorted (h.settled hp)))
  obtain ⟨hl, ht⟩ := hli.advanced s n hr ((hpe.append_right q.currentInsertions).trans
    (.of_eq (by rw [apply_ite (· ++ q.currentInsertions), cons_append])))
  simp only [q', hq]
  refine ⟨.of_prepared hle hp (h.settled hp) rfl hsb h.heap hl, ?_⟩
  rw [allTasks_of_bulk tickets hb (isCancelled_eq_false s hv.uncancelable), tasks_of_ref hr,
    logical_eq rfl]
  refine (ht.append_left _).trans ?_
  rw [← append_assoc, take_append_drop]

end Leave

section Pop
variable {r : List Entry} {m : Entry} {members : List Entry}

def Pops (slots : CancellationSlots) (tickets : Tickets) (q : WorkQueue) (e : Entry)
    (result : Option Popped) : Prop :=
  ∃ p, result = some p ∧ p.entry.key = e.key ∧ Valid p.tickets p.queue ∧
    p.queue.dispatchingTicket = none ∧
    (p.entry :: p.queue.logical slots p.tickets).Perm (q.logical slots tickets)

theorem popEntry_of_ticket (hb : q.bulk = e :: r)
    (hr : e.ticketRef = some ref) (hre : (tickets ref).remaining = m :: members) :
    ∃ exhausted, q.popEntry tickets =
      some ⟨m, exhausted, q.leaveFront (advance tickets ref 1) ref, advance tickets ref 1⟩ := by
  simp only [popEntry, getElem?_of_bulk hb, hr, hre, leaveFront]
  split
  · exact ⟨none, rfl⟩
  · exact ⟨some ref, rfl⟩

theorem popEntry_spec (s : CancellationSlots) (h : Valid tickets q)
    (hp : q.prepared = true) (hd : q.dispatchingTicket = none) (hb : q.bulk = e :: r)
    (hc : e.isCancelled s = false) : Pops s tickets q e (q.popEntry tickets) := by
  have ha : q.logical s tickets = q.allTasks s tickets := logical_eq hd
  cases hr : e.ticketRef with
  | none =>
    set q' : WorkQueue := { q with cursor := q.cursor + 1 } with hq'
    have hpo : q.popEntry tickets = some ⟨e, none, q', tickets⟩ := by
      simp [popEntry, getElem?_of_bulk hb, hr, hq']
    have hb' : q'.bulk = r := drop_succ_of_bulk hb
    have hl' : q'.live = r ++ q.currentInsertions := by rw [live, hb']
    refine ⟨_, hpo, rfl, ?_, hd, ?_⟩
    · have hrs := List.Pairwise.of_cons (hb ▸ h.sorted (h.settled hp))
      have hsu := (h.live_cons hb).of_sublist (sublist_cons_self ..)
      exact .of_prepared (cursor_lt_of_bulk hb) hp (h.settled hp) hd
        (hb'.symm ▸ hrs) h.heap (hl'.symm ▸ hsu)
    · rw [ha, allTasks_of_bulk tickets hb hc, tasks_of_none hr]
      rw [logical_eq (show q'.dispatchingTicket = none from hd), hl']
      exact .refl _
  | some ref =>
    have hs := ((h.live_cons hb).ticket e (mem_cons_self ..) ref hr).shown
    obtain ⟨hv', hpe⟩ := leaveFront_valid s 1 q.dispatchingTicketCount h hp hb hr
    obtain ⟨entries, i, hq, -⟩ :=
      @leaveFront_eq (advance tickets ref 1) _ _ _ _ h.cursor_le hb hr
      (List.Pairwise.of_cons (hb ▸ h.sorted (h.settled hp)))
    rw [hq, ← hd] at hv' hpe
    cases hre : (tickets ref).remaining with
    | nil => simp [hre] at hs
    | cons m members =>
      rw [hre] at hs hpe
      obtain ⟨exhausted, hpo⟩ := popEntry_of_ticket hb hr hre
      rw [hq] at hpo
      exact ⟨_, hpo, Option.some.inj hs, hv', hd, ha ▸ hpe⟩

def heapAfter (tickets : Tickets) (ref : ℕ) (e : Entry) (others : List Entry) : List Entry :=
  if (tickets ref).cursor < (tickets ref).count then
    BinaryHeap.pushHeap Entry.key (others ++ [showMember e (tickets ref)])
  else others

theorem popInserted_of_ticket {o : List Entry} (hf : q.currentInsertions = e :: r)
    (hp : q.popInsertion = { q with currentInsertions := o })
    (hr : e.ticketRef = some ref) (hre : (tickets ref).remaining = m :: members) :
    ∃ exhausted, q.popInserted tickets = some ⟨m, exhausted,
      { q with currentInsertions := heapAfter (advance tickets ref 1) ref e o },
      advance tickets ref 1⟩ := by
  simp only [popInserted, hf, head?_cons, hp, hr, hre, heapAfter]
  split
  · exact ⟨none, rfl⟩
  · exact ⟨some ref, rfl⟩

theorem append_pushHeap_perm (e : Entry) (bulk l : List Entry) :
    (bulk ++ BinaryHeap.pushHeap key (l ++ [e])).Perm (e :: (bulk ++ l)) :=
  (((BinaryHeap.pushHeap_perm ..).trans (perm_append_singleton ..)).append_left _).trans perm_middle

theorem heapAfter_spec (s : CancellationSlots) {bulk others : List Entry}
    (hl : LiveValid tickets (e :: (bulk ++ others))) (hre : e.ticketRef = some ref)
    (hrm : (tickets ref).remaining = m :: members) (hh : Ordered Entry.key others) :
    let heap := heapAfter (advance tickets ref 1) ref e others
    Ordered key heap ∧ LiveValid (advance tickets ref 1) (bulk ++ heap) ∧
      (tasksOf s (advance tickets ref 1) (bulk ++ heap)).Perm
        (members ++ tasksOf s tickets (bulk ++ others)) := by
  intro heap
  have ha := @LiveValid.advanced tickets e ref (bulk ++ heap) (bulk ++ others) s 1 hl hre
  rw [hrm] at ha
  by_cases hc : (advance tickets ref 1 ref).cursor < (advance tickets ref 1 ref).count
  · have hh' : heap = BinaryHeap.pushHeap key
        (others ++ [showMember e (advance tickets ref 1 ref)]) := if_pos hc
    rw [if_pos hc] at ha
    refine ⟨hh' ▸ BinaryHeap.pushHeap_ordered _ hh, ha ?_⟩
    rw [hh']
    exact append_pushHeap_perm ..
  · have hh' : heap = others := if_neg hc
    rw [if_neg hc, hh'] at ha
    rw [hh']
    exact ⟨hh, ha (.refl _)⟩

theorem popInserted_spec (s : CancellationSlots) (h : Valid tickets q)
    (hp : q.prepared = true) (hd : q.dispatchingTicket = none)
    (hf : q.currentInsertions = e :: r) (hc : e.isCancelled s = false) :
    Pops s tickets q e (q.popInserted tickets) := by
  obtain ⟨o, hpo, hpr, ho⟩ := popInsertion_eq hf
  have hpe : q.live.Perm (e :: (q.bulk ++ o)) := by
    rw [live, hf]
    exact ((hpr.symm.cons e).append_left _).trans perm_middle
  have hli := h.live.of_perm hpe.symm
  have hlo : (q.logical s tickets).Perm (e.tasks tickets ++ tasksOf s tickets (q.bulk ++ o)) := by
    rw [logical_eq hd, ← tasksOf_cons hc]
    exact tasksOf_perm hpe
  have hso := h.settled hp
  have hv : ∀ (t' : Tickets) (heap : List Entry), Ordered key heap →
      LiveValid t' (q.bulk ++ heap) →
      Valid t' { q with currentInsertions := heap } := fun t' heap hh hl =>
    .of_prepared h.cursor_le hp hso hd (h.sorted hso) hh hl
  have ha : ∀ (t' : Tickets) (heap : List Entry),
      ({ q with currentInsertions := heap } : WorkQueue).logical s t' =
        tasksOf s t' (q.bulk ++ heap) :=
    fun t' heap => logical_eq hd
  cases hr : e.ticketRef with
  | none =>
    have hpp : q.popInserted tickets =
        some ⟨e, none, { q with currentInsertions := o }, tickets⟩ := by
      simp [popInserted, hf, head?_cons, hpo, hr]
    refine ⟨_, hpp, rfl, hv _ _ (ho h.heap) (hli.of_sublist (sublist_cons_self ..)), hd, ?_⟩
    rw [tasks_of_none hr] at hlo
    exact (List.Perm.of_eq (congrArg (e :: ·) (ha tickets o))).trans hlo.symm
  | some ref =>
    have hs := (hli.ticket e (mem_cons_self ..) ref hr).shown
    cases hre : (tickets ref).remaining with
    | nil => simp [hre] at hs
    | cons m members =>
      rw [tasks_of_ref hr, hre] at hlo
      rw [hre] at hs
      obtain ⟨exhausted, hpp⟩ := popInserted_of_ticket hf hpo hr hre
      obtain ⟨hh, hl', hp'⟩ := heapAfter_spec s hli hr hre (ho h.heap)
      refine ⟨_, hpp, Option.some.inj hs, hv _ _ hh hl', hd, ?_⟩
      refine (List.Perm.of_eq (congrArg (m :: ·) (ha _ _))).trans ?_
      exact (hp'.cons m).trans hlo.symm

def PopsLeast (slots : CancellationSlots) (tickets : Tickets) (q : WorkQueue)
    (result : Option Popped) : Prop :=
  ∃ popped, result = some popped ∧ Valid popped.tickets popped.queue ∧
    popped.queue.dispatchingTicket = none ∧
    (∀ m ∈ q.logical slots tickets, popped.entry.key ≤ m.key) ∧
    (popped.entry :: popped.queue.logical slots popped.tickets).Perm (q.logical slots tickets)

theorem pop_spec (s : CancellationSlots) (h : Valid tickets q) (hd : q.dispatchingTicket = none)
    (hne : q.logical s tickets ≠ []) : PopsLeast s tickets q (q.pop s tickets) := by
  obtain ⟨hv, hsa, hpr, hr⟩ := prepare_spec s h
  have hl := hsa.logical tickets
  have hd' := hsa.dispatchingTicket.trans hd
  set p := q.prepare s with hp
  have hs := hv.sorted (hv.settled hpr)
  have hpo : ∀ {e r}, Pops s tickets p e r → (∀ x ∈ p.bulk, e.key ≤ x.key) →
      (∀ x ∈ p.currentInsertions, e.key ≤ x.key) → PopsLeast s tickets q r := by
    rintro e r ⟨popped, hpo, hk, hv', hd'', hpe⟩ hbu hin
    refine ⟨popped, hpo, hv', hd'', fun m hm => ?_, hpe.trans hl⟩
    have hm' := hl.symm.subset hm
    rw [logical_eq hd'] at hm'
    obtain ⟨x, hx, hme⟩ := mem_flatMap.mp hm'
    have hxl := mem_of_mem_filter hx
    rw [hk]
    exact ((mem_append.mp hxl).elim (hbu x) (hin x)).trans (hv.live.key_le hxl m hme)
  have hbu : ∀ e r, p.bulk = e :: r → ∀ x ∈ p.bulk, e.key ≤ x.key := by
    intro e r hb x hx
    rw [hb] at hx hs
    rcases mem_cons.mp hx with rfl | hx
    · exact le_rfl
    · exact rel_of_pairwise_cons hs hx
  have hh : ∀ e r, p.currentInsertions = e :: r →
      ∀ x ∈ p.currentInsertions, e.key ≤ x.key := by
    intro e r hf x hx
    have hhe := hv.heap
    rw [hf] at hx hhe
    exact BinaryHeap.head_le hhe hx
  have hen : ∀ e r, p.bulk = e :: r → (∀ x ∈ p.currentInsertions, e.key ≤ x.key) →
      PopsLeast s tickets q (p.popEntry tickets) := fun e r hb =>
    hpo (popEntry_spec s hv hpr hd' hb (hr.1 e (by rw [hb]; rfl))) (hbu e r hb)
  have hin : ∀ e r, p.currentInsertions = e :: r → (∀ x ∈ p.bulk, e.key ≤ x.key) →
      PopsLeast s tickets q (p.popInserted tickets) := fun e r hf hmi =>
    hpo (popInserted_spec s hv hpr hd' hf (hr.2 e (by rw [hf]; rfl))) hmi (hh e r hf)
  rw [pop, ← hp]
  cases hb : p.bulk with
  | nil =>
    have hn : p.entries[p.cursor]? = none := by
      rw [← head?_drop, ← bulk, hb]
      rfl
    cases hf : p.currentInsertions with
    | nil =>
      refine absurd ?_ hne
      have hni : p.logical s tickets = [] := by simp [logical, pending, live, hb, hf]
      exact perm_nil.mp (hni ▸ hl.symm)
    | cons f r =>
      simp only [hn]
      exact hin f r hf (by simp [hb])
  | cons e r =>
    simp only [getElem?_of_bulk hb]
    cases hf : p.currentInsertions with
    | nil => exact hen e r hb (by simp [hf])
    | cons f o =>
      simp only [head?_cons]
      split
      · next hls =>
        have hle := (keyLess_iff.mp hls).le
        exact hin f o hf fun x hx => hle.trans (hbu e r hb x hx)
      · next hls =>
        have hle := keyLess_eq_false_iff.mp (by simpa using hls)
        exact hen e r hb fun x hx => hle.trans (hh f o hf x hx)

end Pop

end WorkQueue

end FsimRuntime.Queue
