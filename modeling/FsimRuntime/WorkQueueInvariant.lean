import FsimRuntime.WorkQueueModel

/-!
# The state of a work queue

The entries before the cursor are consumed. The others, sorted unless the
queue says otherwise, and the heap of later insertions are the live ones, and
a live ticket entry stands for the members its ticket has left.
-/

namespace FsimRuntime.Queue
variable {a b : Entry}

open List
open BinaryHeap (Ordered)

theorem keyLess_iff : keyLess a b = true ↔ a.key < b.key := by
  rw [keyLess, Entry.key, Entry.key, Prod.Lex.toLex_lt_toLex]
  simp

theorem keyLess_eq_false_iff : keyLess a b = false ↔ b.key ≤ a.key := by
  rw [← not_lt, ← keyLess_iff, Bool.not_eq_true]

abbrev Sorted (l : List Entry) : Prop := l.Pairwise fun a b => a.key ≤ b.key

structure TicketValid (entry : Entry) (ticket : BatchTicket) : Prop where
  uncancelable : entry.cancellation = none
  shown : ticket.remaining.head?.map Entry.key = some entry.key
  sorted : Sorted ticket.remaining
  members : ∀ m ∈ ticket.remaining, m.cancellation = none ∧ m.ticketRef = none

structure LiveValid (tickets : Tickets) (live : List Entry) : Prop where
  ticket : ∀ e ∈ live, ∀ ref, e.ticketRef = some ref → TicketValid e (tickets ref)
  distinct : (live.filterMap Entry.ticketRef).Nodup

namespace WorkQueue

variable {s : CancellationSlots} {t : Tickets} {q : WorkQueue}

def bulk (q : WorkQueue) : List Entry := q.entries.drop q.cursor

def live (q : WorkQueue) : List Entry := q.bulk ++ q.currentInsertions

def pending (slots : CancellationSlots) (q : WorkQueue) : List Entry :=
  q.live.filter fun e => !e.isCancelled slots

def logical (slots : CancellationSlots) (tickets : Tickets) (q : WorkQueue) : List Entry :=
  (q.pending slots).flatMap (q.queued tickets)

structure Valid (tickets : Tickets) (q : WorkQueue) : Prop where
  cursor_le : q.cursor ≤ q.entries.length
  idle : q.prepared = false → q.cursor = 0 ∧ q.currentInsertions = [] ∧
    q.dispatchingTicket = none
  settled : q.prepared = true → q.needsSort = false
  sorted : q.needsSort = false → Sorted q.bulk
  heap : Ordered Entry.key q.currentInsertions
  live : LiveValid tickets q.live
  dispatch : ∀ ref, q.dispatchingTicket = some ref → ∃ e rest, q.bulk = e :: rest ∧
    e.ticketRef = some ref ∧ q.dispatchingTicketCount ≤ (tickets ref).remaining.length

theorem valid_start : Valid t start :=
  ⟨le_rfl, fun _ => ⟨rfl, rfl, rfl⟩, nofun, fun _ => .nil, fun _ _ _ => le_rfl,
    ⟨nofun, .nil⟩, nofun⟩

end WorkQueue

section Live
variable {t : Tickets} {live live' : List Entry}

theorem LiveValid.of_subperm (h : LiveValid t live) (hs : live'.Subperm live) :
    LiveValid t live' := by
  obtain ⟨l, hp, hs⟩ := hs
  refine ⟨fun e he => h.ticket e (hs.subset (hp.symm.subset he)), ?_⟩
  have hn := h.distinct.sublist (hs.filterMap Entry.ticketRef)
  exact (hp.filterMap Entry.ticketRef).nodup_iff.mp hn

theorem LiveValid.of_perm (h : LiveValid t live) (hp : live'.Perm live) : LiveValid t live' :=
  h.of_subperm hp.subperm

theorem LiveValid.of_sublist (h : LiveValid t live) (hs : live'.Sublist live) : LiveValid t live' :=
  h.of_subperm hs.subperm

variable {rest : List Entry} {e : Entry} {ref : ℕ} {ticket : BatchTicket}

theorem LiveValid.ref_ne (h : LiveValid t (e :: rest)) (hr : e.ticketRef = some ref) :
    ∀ x ∈ rest, x.ticketRef ≠ some ref := by
  have hn := h.distinct
  rw [filterMap_cons_some hr, nodup_cons] at hn
  exact fun x hx he => hn.1 (mem_filterMap.mpr ⟨x, hx, he⟩)

theorem LiveValid.update_of_ne (h : LiveValid t live)
    (hn : ∀ x ∈ live, x.ticketRef ≠ some ref) :
    LiveValid (Function.update t ref ticket) live := by
  refine ⟨fun x hx r hr => ?_, h.distinct⟩
  have hr' : r ≠ ref := fun he => hn x hx (he ▸ hr)
  rw [Function.update_of_ne hr']
  exact h.ticket x hx r hr

def WorkQueue.Joins (tickets : Tickets) (live : List Entry) (e : Entry) : Prop :=
  ∀ ref, e.ticketRef = some ref → TicketValid e (tickets ref) ∧
    ∀ x ∈ live, x.ticketRef ≠ some ref

theorem WorkQueue.Joins.cons (he : Joins t live e) (h : LiveValid t live) :
    LiveValid t (e :: live) := by
  refine ⟨fun x hx ref hr => ?_, ?_⟩
  · rcases mem_cons.mp hx with rfl | hx
    · exact (he ref hr).1
    · exact h.ticket x hx ref hr
  · cases hr : e.ticketRef with
    | none => rw [filterMap_cons_none hr]; exact h.distinct
    | some ref =>
      rw [filterMap_cons_some hr, nodup_cons]
      refine ⟨fun hm => ?_, h.distinct⟩
      obtain ⟨x, hx, hxr⟩ := mem_filterMap.mp hm
      exact (he ref hr).2 x hx hxr

theorem LiveValid.cons_update {e' : Entry} (h : LiveValid t (e :: rest))
    (hre : e.ticketRef = some ref) (hr' : e'.ticketRef = some ref) (hv : TicketValid e' ticket) :
    LiveValid (Function.update t ref ticket) (e' :: rest) := by
  refine WorkQueue.Joins.cons (fun r hr => ?_)
    ((h.of_sublist (sublist_cons_self ..)).update_of_ne (h.ref_ne hre))
  obtain rfl := Option.some.inj (hr'.symm.trans hr)
  rw [Function.update_self]
  exact ⟨hv, h.ref_ne hre⟩

end Live

namespace WorkQueue

variable {s : CancellationSlots} {t : Tickets} {q : WorkQueue}

structure Same (slots : CancellationSlots) (q q' : WorkQueue) : Prop where
  pending : (q'.pending slots).Perm (q.pending slots)
  dispatchingTicket : q'.dispatchingTicket = q.dispatchingTicket
  dispatchingTicketCount : q'.dispatchingTicketCount = q.dispatchingTicketCount

theorem Same.refl (q : WorkQueue) : Same s q q := ⟨.refl _, rfl, rfl⟩

variable {q q' : WorkQueue} {f : Entry} {rest : List Entry}

theorem Same.trans {q'' : WorkQueue} (h : Same s q q') (h' : Same s q' q'') : Same s q q'' :=
  ⟨h'.pending.trans h.pending, h'.dispatchingTicket.trans h.dispatchingTicket,
    h'.dispatchingTicketCount.trans h.dispatchingTicketCount⟩

theorem Same.queued (h : Same s q q') : q'.queued t = q.queued t := by
  funext e
  rw [WorkQueue.queued, WorkQueue.queued, h.dispatchingTicket, h.dispatchingTicketCount]

theorem Same.logical (t : Tickets) (h : Same s q q') : (q'.logical s t).Perm (q.logical s t) := by
  rw [WorkQueue.logical, h.queued]
  exact h.pending.flatMap_right _

theorem sortEntries_perm (l : List Entry) : (sortEntries l).Perm l := perm_insertionSort ..

theorem sortEntries_sorted (l : List Entry) : Sorted (sortEntries l) :=
  pairwise_insertionSort ..

theorem bulk_of_dispatching (h : Valid t q) {ref : ℕ} (hd : q.dispatchingTicket = some ref) :
    q.prepared = true := by
  by_contra hp
  have := (h.idle (by simpa using hp)).2.2
  simp [hd] at this

theorem sortForDispatch_valid (s : CancellationSlots) (h : Valid t q) :
    Valid t q.sortForDispatch ∧ Same s q q.sortForDispatch := by
  rw [sortForDispatch]
  split
  · next hs =>
    have hid : q.prepared = false := by
      by_contra hp
      simp [h.settled (by simpa using hp)] at hs
    have hb : (q.entries.take q.cursor ++ sortEntries (q.entries.drop q.cursor)).drop q.cursor =
        sortEntries q.bulk := by
      rw [drop_append_of_le_length (by simp [h.cursor_le])]
      simp [bulk]
    have hl : (sortEntries q.bulk ++ q.currentInsertions).Perm q.live :=
      (sortEntries_perm _).append_right _
    refine ⟨⟨?_, nofun, fun _ => rfl, fun _ => ?_, h.heap, ?_, ?_⟩, ?_, rfl, rfl⟩
    · simp [h.cursor_le]
    · simp only [bulk, hb]
      exact sortEntries_sorted _
    · simp only [live, bulk, hb]
      exact h.live.of_perm hl
    · intro ref hd
      have := (h.idle hid).2.2
      simp [this] at hd
    · simp only [pending, live, bulk, hb]
      exact hl.filter _
  · next hs =>
    exact ⟨{ h with idle := nofun, settled := fun _ => by simpa using hs }, .refl _, rfl, rfl⟩

theorem bulk_skipCancelled :
    (q.skipCancelled s).bulk = q.bulk.dropWhile fun e => e.isCancelled s := by
  rw [bulk, skipCancelled, ← drop_drop]
  nth_rewrite 2
    [← takeWhile_append_dropWhile (p := fun e => e.isCancelled s) (l := q.entries.drop q.cursor)]
  exact drop_left

theorem filter_dropWhile_cancelled (l : List Entry) :
    (l.dropWhile fun e => e.isCancelled s).filter (fun e => !e.isCancelled s) =
      l.filter fun e => !e.isCancelled s := by
  induction l with
  | nil => rfl
  | cons e l ih =>
    by_cases he : e.isCancelled s
    · simp [he, ih]
    · simp [he]

theorem skipCancelled_valid (s : CancellationSlots) (h : Valid t q) (hpr : q.prepared = true) :
    Valid t (q.skipCancelled s) ∧ Same s q (q.skipCancelled s) := by
  have hsu : (q.skipCancelled s).bulk.Sublist q.bulk := by
    rw [bulk_skipCancelled]
    exact dropWhile_sublist _
  refine ⟨⟨?_, ?_, h.settled, fun hs => (h.sorted hs).sublist hsu, h.heap,
    h.live.of_sublist (hsu.append_right _), fun ref hd => ?_⟩, ?_, rfl, rfl⟩
  · have hl := (@takeWhile_sublist _ q.bulk fun e => e.isCancelled s).length_le
    have hcu := h.cursor_le
    simp only [bulk, length_drop] at hl
    simp only [skipCancelled]
    omega
  · intro hp
    exact absurd hpr (by simpa [skipCancelled] using hp)
  · obtain ⟨e, rest, hb, hr, hco⟩ := h.dispatch ref hd
    have hm : e ∈ q.live := by simp [live, hb]
    have hc := (h.live.ticket e hm ref hr).uncancelable
    refine ⟨e, rest, ?_, hr, hco⟩
    rw [bulk_skipCancelled, hb]
    simp [Entry.isCancelled, hc]
  · simp only [pending, live, bulk_skipCancelled, filter_append, filter_dropWhile_cancelled]
    rfl

theorem popInsertion_eq (hf : q.currentInsertions = f :: rest) :
    ∃ o, q.popInsertion = { q with currentInsertions := o } ∧ o.Perm rest ∧
      (Ordered Entry.key q.currentInsertions → Ordered Entry.key o) := by
  obtain ⟨o, he, hp, ho⟩ := BinaryHeap.popHeap_eq Entry.key f rest
  refine ⟨o, ?_, hp, hf ▸ ho⟩
  rw [popInsertion, hf, he, dropLast_concat]

theorem popInsertion_valid (h : Valid t q) (hf : q.currentInsertions = f :: rest)
    (hc : f.isCancelled s = true) : Valid t q.popInsertion ∧ Same s q q.popInsertion := by
  obtain ⟨o, he, hpe, ho⟩ := popInsertion_eq hf
  rw [he]
  have hl : (q.bulk ++ o).Subperm q.live := by
    rw [live, hf]
    exact (hpe.append_left _).subperm.trans ((sublist_cons_self ..).append_left _).subperm
  refine ⟨⟨h.cursor_le, fun hp => ?_, h.settled, h.sorted, ho h.heap, h.live.of_subperm hl,
    h.dispatch⟩, ?_, rfl, rfl⟩
  · have := (h.idle hp).2.1
    simp [hf] at this
  · simp only [pending, live, hf, filter_append, filter_cons, hc]
    exact (hpe.filter _).append_left _

theorem discardCancelledInsertions_spec (s : CancellationSlots) (h : Valid t q) (f : ℕ)
    (hf : q.currentInsertions.length ≤ f) :
    Valid t (q.discardCancelledInsertions s f) ∧ Same s q (q.discardCancelledInsertions s f) ∧
      (∀ e, (q.discardCancelledInsertions s f).currentInsertions.head? = some e →
        e.isCancelled s = false) ∧
      ∃ o, q.discardCancelledInsertions s f = { q with currentInsertions := o } := by
  induction f generalizing q with
  | zero =>
    refine ⟨h, .refl q, ?_, _, rfl⟩
    rw [discardCancelledInsertions, eq_nil_of_length_eq_zero (Nat.le_zero.mp hf)]
    nofun
  | succ f ih =>
    rw [discardCancelledInsertions]
    split
    · next fr rest hi =>
      split
      · next hc =>
        obtain ⟨hv, hs⟩ := popInsertion_valid h hi hc
        obtain ⟨o, he, hp, -⟩ := popInsertion_eq hi
        obtain ⟨hv', hs', hfr, o', he'⟩ := ih hv (by rw [he, hp.length_eq]; simpa [hi] using hf)
        exact ⟨hv', hs.trans hs', hfr, o', he'⟩
      · next hc =>
        refine ⟨h, .refl q, fun e he => ?_, _, rfl⟩
        rw [hi] at he
        obtain rfl := Option.some.inj he
        simpa using hc
    · next hi =>
      refine ⟨h, .refl q, ?_, _, rfl⟩
      rw [hi]
      nofun

theorem compact_subperm : (q.compact s).live.Subperm q.live := by
  rw [compact]
  split
  · exact .refl _
  · exact ((BinaryHeap.makeHeap_perm ..).append_left _).subperm.trans
      (filter_sublist.append filter_sublist).subperm

theorem compact_valid (s : CancellationSlots) (h : Valid t q) :
    Valid t (q.compact s) ∧ Same s q (q.compact s) := by
  have hl := h.live.of_subperm (@compact_subperm s q)
  rw [compact] at hl ⊢
  split_ifs at hl ⊢ with hd
  · exact ⟨h, .refl q⟩
  · have hh := BinaryHeap.makeHeap_perm Entry.key
      (q.currentInsertions.filter fun e => !e.isCancelled s)
    refine ⟨⟨Nat.zero_le _, fun hp => ?_, fun hp => ?_, fun hs => ?_,
      BinaryHeap.makeHeap_ordered _ _, hl, fun ref hd' => ?_⟩, ?_, rfl, rfl⟩
    · obtain ⟨-, hin, hdi⟩ := h.idle hp
      exact ⟨rfl, by simp [hin, BinaryHeap.makeHeap], hdi⟩
    · simp [h.settled hp]
    · simp only [Bool.and_eq_false_iff, Bool.not_eq_false', List.isEmpty_iff] at hs
      rcases hs with hs | hs
      · exact (h.sorted hs).sublist List.filter_sublist
      · rw [hs]
        exact .nil
    · simp [show q.dispatchingTicket = some ref from hd'] at hd
    · have hf : ∀ l : List Entry, (l.filter fun e => !e.isCancelled s).filter
          (fun e => !e.isCancelled s) = l.filter fun e => !e.isCancelled s :=
        fun l => by simp
      simp only [pending, live, bulk, drop_zero, filter_append, hf]
      refine List.Perm.append_left _ ?_
      exact (hh.filter _).trans (.of_eq (hf _))

theorem compact_uncancelled (s : CancellationSlots) (hd : q.dispatchingTicket = none) :
    ∀ e ∈ (q.compact s).live, e.isCancelled s = false := by
  intro e he
  simp only [compact, hd, Option.isSome_none, Bool.false_eq_true, if_false, live, bulk,
    drop_zero, mem_append, mem_filter,
    (BinaryHeap.makeHeap_perm Entry.key _).mem_iff] at he
  simpa using he.elim And.right And.right

def Ready (slots : CancellationSlots) (q : WorkQueue) : Prop :=
  (∀ e, q.bulk.head? = some e → e.isCancelled slots = false) ∧
    ∀ e, q.currentInsertions.head? = some e → e.isCancelled slots = false

theorem skipCancelled_front :
    ∀ e, (q.skipCancelled s).bulk.head? = some e → e.isCancelled s = false := by
  intro e he
  rw [bulk_skipCancelled] at he
  have := head?_dropWhile_not (fun e => e.isCancelled s) q.bulk
  rw [he] at this
  simpa using this

theorem compact_prepared : (q.compact s).prepared = q.prepared := by
  rw [compact]
  split <;> rfl

theorem prepare_spec (s : CancellationSlots) (h : Valid t q) :
    Valid t (q.prepare s) ∧ Same s q (q.prepare s) ∧
      (q.prepare s).prepared = true ∧ Ready s (q.prepare s) := by
  obtain ⟨hso, hsa⟩ := sortForDispatch_valid s h
  have hp : q.sortForDispatch.prepared = true := by
    rw [sortForDispatch]
    split <;> rfl
  obtain ⟨hsk, hs₂⟩ := skipCancelled_valid s hso hp
  set skipped := q.sortForDispatch.skipCancelled s with hs
  obtain ⟨hdi, hs₃, hf, o, he⟩ := discardCancelledInsertions_spec s hsk _ le_rfl
  set discarded := skipped.discardCancelledInsertions s skipped.currentInsertions.length
  have hr : Ready s discarded := ⟨he ▸ skipCancelled_front, hf⟩
  have ha : Same s q discarded := (hsa.trans hs₂).trans hs₃
  have ho : discarded.prepared = true := he ▸ hp
  rw [prepare]
  split
  · obtain ⟨hc, hs₄⟩ := compact_valid s hdi
    refine ⟨hc, ha.trans hs₄, compact_prepared.trans ho, ?_⟩
    cases hd : discarded.dispatchingTicket with
    | some ref =>
      have hid : discarded.compact s = discarded := by simp [compact, hd]
      rwa [hid]
    | none =>
      have hl := compact_uncancelled s hd
      exact ⟨fun e he => hl e (mem_append_left _ (mem_of_mem_head? he)),
        fun e he => hl e (mem_append_right _ (mem_of_mem_head? he))⟩
  · exact ⟨hdi, ha, ho, hr⟩

end WorkQueue

end FsimRuntime.Queue
