import FsimRuntime.WorkQueueSteps

/-!
# Insertions, groups and dispatches

The operations on a work queue besides `pop`, with their effect on the
logical tasks.
-/

namespace FsimRuntime.Queue
open List Option Entry Function
open BinaryHeap (Ordered)

variable {s : CancellationSlots} {tickets : Tickets} {q : WorkQueue} {e : Entry} {ref : ℕ}

namespace WorkQueue

theorem queued_of_ref (hr : e.ticketRef = some ref) :
    q.queued tickets e = if q.dispatchingTicket = some ref then
      (tickets ref).remaining.drop q.dispatchingTicketCount else (tickets ref).remaining := by
  rw [ticketRef] at hr
  split at hr
  · next ht =>
    obtain rfl := some.inj hr
    rw [queued, ht]
  · cases hr

theorem queued_of_none (hre : e.ticketRef = none) : q.queued tickets e = [e] := by
  rw [ticketRef] at hre
  split at hre
  · cases hre
  · next ht =>
    rw [queued]
    split
    · next r hr => exact absurd hr (ht r)
    · rfl

variable {live l : List Entry} {b : BatchEntry}

theorem remaining_ne_nil (h : LiveValid tickets live) (he : e ∈ live)
    (hr : e.ticketRef = some ref) : (tickets ref).remaining ≠ [] := by
  have hs := (h.ticket e he ref hr).shown
  rintro hn
  simp [hn] at hs

theorem queued_eq_nil_iff (h : Valid tickets q) (he : e ∈ q.live) :
    q.queued tickets e = [] ↔ ∃ ref, e.ticketRef = some ref ∧
      q.dispatchingTicket = some ref ∧
      (tickets ref).count ≤ (tickets ref).cursor + q.dispatchingTicketCount := by
  cases hre : e.ticketRef with
  | none => simp [queued_of_none hre]
  | some ref =>
    have hn := remaining_ne_nil h.live he hre
    rw [queued_of_ref hre]
    split
    · next hd =>
      simp only [drop_eq_nil_iff, BatchTicket.remaining, length_drop, BatchTicket.count,
        some.injEq, exists_eq_left', hd, true_and]
      omega
    · next hd =>
      simp only [hn, false_iff, not_exists, not_and, some.injEq]
      rintro r rfl hr
      exact absurd hr hd

theorem dispatching_not_inserted (h : Valid tickets q) (hd : q.dispatchingTicket = some ref) :
    ∀ x ∈ q.currentInsertions, x.ticketRef ≠ some ref := by
  obtain ⟨f, r, hb, hr, -⟩ := h.dispatch ref hd
  exact fun x hx => (h.live_cons hb).ref_ne hr x (mem_append_right _ hx)

theorem logical_eq_nil_iff : q.logical s tickets = [] ↔
    ∀ x ∈ q.live, x.isCancelled s = false → q.queued tickets x = [] := by
  simp [logical, pending]

theorem empty_iff (h : Valid tickets q) : q.empty s tickets = true ↔
    q.logical s tickets = [] := by
  rw [logical_eq_nil_iff]
  have hin : ∀ x ∈ q.currentInsertions, x.isCancelled s = true ↔
      (x.isCancelled s = false → q.queued tickets x = []) := by
    intro x hx
    rw [queued_eq_nil_iff h (List.mem_append_right _ hx)]
    cases x.isCancelled s with
    | true => simp
    | false =>
      simp only [Bool.false_eq_true, false_iff, forall_const, not_exists, not_and]
      exact fun r hr hd => absurd hr (dispatching_not_inserted h hd x hx)
  have hp : q.pendingEmpty s tickets = true ↔
      ∀ x ∈ q.live, x.isCancelled s = false → q.queued tickets x = [] := by
    rw [pendingEmpty, Bool.and_eq_true, List.all_eq_true, List.all_eq_true]
    simp only [live, List.mem_append, or_imp, forall_and]
    refine and_congr (forall₂_congr fun x hx => ?_) (forall₂_congr hin)
    rw [queued_eq_nil_iff h (List.mem_append_left _ hx), ticketRef]
    cases x.isCancelled s <;> cases x.task <;> simp
  rw [empty, Bool.or_eq_true, hp]
  refine ⟨fun ho => ho.elim (fun hn => ?_) id, .inr⟩
  simp only [Bool.and_eq_true, decide_eq_true_eq, List.isEmpty_iff] at hn
  simp [live, bulk, List.drop_eq_nil_of_le hn.1, hn.2]

theorem compactBeforePush_valid (s : CancellationSlots) (h : Valid tickets q) :
    Valid tickets (q.compactBeforePush s) ∧ Same s q (q.compactBeforePush s) ∧
      (q.compactBeforePush s).live.Subperm q.live := by
  rw [compactBeforePush]
  split
  · obtain ⟨hv, hs⟩ := compact_valid s h
    exact ⟨hv, hs, compact_subperm⟩
  · exact ⟨h, .refl q, .refl _⟩

theorem sorted_append_singleton (hl : Sorted l)
    (hla : ∀ last, l.getLast? = some last → last.key ≤ e.key) : Sorted (l ++ [e]) := by
  refine pairwise_append.mpr ⟨hl, pairwise_singleton .., fun a ha b hb => ?_⟩
  obtain rfl := mem_singleton.mp hb
  obtain ⟨i, last, rfl⟩ : ∃ i last, l = i ++ [last] :=
    (eq_nil_or_concat' l).resolve_left (ne_nil_of_mem ha)
  have hle := hla last (by simp)
  rcases mem_append.mp ha with ha | ha
  · exact ((pairwise_append.mp hl).2.2 a ha last (mem_singleton_self _)).trans hle
  · rwa [mem_singleton.mp ha]

theorem push_valid (s : CancellationSlots) (h : Valid tickets q) (he : Joins tickets q.live e) :
    Valid tickets (q.push s e) ∧ (q.push s e).dispatchingTicket = q.dispatchingTicket ∧
      (q.push s e).dispatchingTicketCount = q.dispatchingTicketCount ∧
      ((q.push s e).pending s).Perm
        ([e].filter (fun x => !x.isCancelled s) ++ q.pending s) := by
  obtain ⟨hv, hsa, hsu⟩ := compactBeforePush_valid s h
  set p := q.compactBeforePush s with hp
  have hli : LiveValid tickets (e :: p.live) :=
    Joins.cons (fun ref hre => ⟨(he ref hre).1, fun x hx => (he ref hre).2 x (hsu.subset hx)⟩)
      hv.live
  have hpe : ∀ live : List Entry, live.Perm (e :: p.live) →
      (live.filter fun x => !x.isCancelled s).Perm
        ([e].filter (fun x => !x.isCancelled s) ++ q.pending s) := by
    intro live hl
    refine (hl.filter _).trans ?_
    rw [← singleton_append, filter_append]
    exact hsa.pending.append_left _
  rw [push, ← hp]
  by_cases hpr : p.prepared = true
  · simp only [hpr, if_true]
    have hh := append_pushHeap_perm e p.bulk p.currentInsertions
    exact ⟨⟨hv.cursor_le, by rintro ⟨⟩, fun _ => hv.settled hpr, hv.sorted,
      BinaryHeap.pushHeap_ordered _ hv.heap, hli.of_perm hh, hv.dispatch⟩,
      hsa.dispatchingTicket, hsa.dispatchingTicketCount, hpe _ hh⟩
  · have hid : p.prepared = false := by simpa using hpr
    obtain ⟨hc, hin, hd⟩ := hv.idle hid
    simp only [hid, Bool.false_eq_true, if_false]
    have hb : (p.entries ++ [e]).drop p.cursor = p.bulk ++ [e] := by
      rw [bulk, hc]
      rfl
    have ha : (p.bulk ++ [e] ++ p.currentInsertions).Perm (e :: p.live) := by
      rw [append_assoc]
      exact perm_middle
    refine ⟨⟨?_, fun _ => ⟨hc, hin, hd⟩, by rintro ⟨⟩, fun hs => ?_, hv.heap, ?_, ?_⟩,
      hsa.dispatchingTicket, hsa.dispatchingTicketCount, ?_⟩
    · simp [hc]
    · simp only [bulk, hb]
      simp only [Bool.or_eq_false_iff, Bool.and_eq_false_iff, decide_eq_false_iff_not] at hs
      refine sorted_append_singleton (hv.sorted hs.1) fun l hla => ?_
      have hl' : p.entries.getLast? = some l := by simpa [hc] using hla
      have hpo : p.cursor < p.entries.length := by
        rw [hc]
        exact length_pos_of_mem (mem_of_getLast? hl')
      have hle := hs.2.resolve_left (not_not.mpr hpo)
      rw [hl'] at hle
      exact keyLess_eq_false_iff.mp (by simpa using hle)
    · simp only [live, bulk, hb]
      exact hli.of_perm ha
    · exact fun r hr => by simp [hd] at hr
    · simp only [pending, live, bulk, hb]
      exact hpe _ ha

def itemEntries : Entry ⊕ Group → List Entry
  | .inl e => [e]
  | .inr group => group.first :: group.others

def Group.Plain (group : Group) : Prop :=
  ∀ m ∈ group.first :: group.others, m.cancellation = none ∧ m.ticketRef = none

theorem groupable_plain (h : groupable e = some b) :
    e.cancellation = none ∧ e.ticketRef = none := by
  rw [groupable] at h
  split at h
  · next ht =>
    split at h
    · next hv =>
      simp only [Bool.and_eq_true, isNone_iff_eq_none] at hv
      exact ⟨hv.2, by simp [ticketRef, ht]⟩
    · cases h
  · cases h

theorem sameGroup_plain (h : sameGroup b e = true) :
    e.cancellation = none ∧ e.ticketRef = none := by
  rw [sameGroup] at h
  split at h
  · next ht =>
    simp only [Bool.and_eq_true, isNone_iff_eq_none] at h
    exact ⟨h.2, by simp [ticketRef, ht]⟩
  · cases h

theorem cutGroups_spec (f groups : ℕ) (l : List Entry) :
    (cutGroups f groups l).flatMap itemEntries = l ∧
      ∀ g, .inr g ∈ cutGroups f groups l → g.Plain := by
  induction f generalizing groups l with
  | zero => simp [cutGroups, flatMap_map, itemEntries]
  | succ f ih =>
    cases l with
    | nil => exact ⟨rfl, by simp [cutGroups]⟩
    | cons first r =>
      rw [cutGroups]
      split
      · next b hb =>
        dsimp only
        split
        · have hp : ((r.takeWhile (sameGroup b)).take
              (maximumMembersPerTicket - 1)) <+: r :=
            ( take_prefix ..).trans ( takeWhile_prefix _)
          refine ⟨?_, fun g hg => ?_⟩
          · simp only [flatMap_cons, itemEntries, ih, cons_append, cons.injEq, true_and]
            exact prefix_iff_eq_append.mp hp
          · rcases mem_cons.mp hg with he | hg
            · obtain rfl := Sum.inr.inj he
              intro m hm
              rcases mem_cons.mp hm with rfl | hm
              · exact groupable_plain hb
              · exact sameGroup_plain (mem_takeWhile_imp (mem_of_mem_take hm))
            · exact (ih ..).2 g hg
        · simpa [itemEntries] using ih groups r
      · simpa [itemEntries] using ih groups r

structure Stored (slots : CancellationSlots) (tickets : Tickets) (bound ref : ℕ)
    (items : List (Entry ⊕ Group)) (stored : List Entry × Tickets) : Prop where
  old : ∀ r < ref, stored.2 r = tickets r
  refs : ∀ x ∈ stored.1, ∀ r, x.ticketRef = some r →
    r < bound ∧ x ∈ items.flatMap itemEntries ∨ ref ≤ r
  live : LiveValid stored.2 stored.1
  keys : (stored.1.map Entry.key).Sublist ((items.flatMap itemEntries).map Entry.key)
  tasks : (stored.1.filter fun x => !x.isCancelled slots).flatMap (Entry.tasks stored.2) =
    ((items.flatMap itemEntries).filter fun x => !x.isCancelled slots).flatMap (Entry.tasks tickets)

theorem Group.ticket_remaining (g : Group) : g.ticket.remaining = g.first :: g.others := rfl

theorem flatMap_tasks_plain (hl : ∀ m ∈ l, m.cancellation = none ∧ m.ticketRef = none) :
    (l.filter fun x => !x.isCancelled s).flatMap (Entry.tasks tickets) = l := by
  rw [filter_eq_self.mpr fun m hm => by simp [isCancelled_eq_false s (hl m hm).1],
    flatMap_congr fun m hm => tasks_of_none (hl m hm).2, flatMap_singleton']

theorem storeGroups_stored (s : CancellationSlots) (ref : ℕ) {b : ℕ}
    {items : List (Entry ⊕ Group)} (hb : b ≤ ref) (hp : ∀ g, .inr g ∈ items → g.Plain)
    (hold : ∀ x, .inl x ∈ items → ∀ r, x.ticketRef = some r → r < b)
    (hl : LiveValid tickets (items.flatMap itemEntries))
    (hso : Sorted (items.flatMap itemEntries)) :
    Stored s tickets b ref items (storeGroups tickets ref items) := by
  induction items generalizing ref with
  | nil => exact ⟨fun _ _ => rfl, nofun, ⟨nofun, .nil⟩, .refl _, rfl⟩
  | cons i items ih =>
    have hrs : ∀ {ref}, b ≤ ref → Stored s tickets b ref items
        (storeGroups tickets ref items) := fun hle =>
      ih _ hle (fun g hg => hp g (mem_cons_of_mem _ hg)) (fun x hx => hold x (mem_cons_of_mem _ hx))
        (hl.of_sublist (sublist_append_right ..))
        (hso.sublist (sublist_append_right ..))
    cases i with
    | inl x =>
      have hs := hrs hb
      have hx := hold x (mem_cons_self ..)
      have hm : x ∈ (Sum.inl x :: items).flatMap itemEntries := by simp [itemEntries]
      have ht : x.tasks (storeGroups tickets ref items).2 = x.tasks tickets := by
        cases hre : x.ticketRef with
        | none => rw [tasks_of_none hre, tasks_of_none hre]
        | some r =>
          rw [tasks_of_ref hre, tasks_of_ref hre, hs.old r (Nat.lt_of_lt_of_le (hx r hre) hb)]
      have hj : Joins (storeGroups tickets ref items).2 (storeGroups tickets ref items).1 x := by
        intro r hr
        have hlt := hx r hr
        refine ⟨?_, fun y hy hyr => ?_⟩
        · rw [hs.old r (Nat.lt_of_lt_of_le hlt hb)]
          exact hl.ticket x hm r hr
        · rcases hs.refs y hy r hyr with ⟨-, hy'⟩ | hle
          · exact hl.ref_ne hr y hy' hyr
          · omega
      refine ⟨hs.old, fun y hy r hyr => ?_, hj.cons hs.live, hs.keys.cons_cons _, ?_⟩
      · rcases mem_cons.mp hy with rfl | hy
        · exact .inl ⟨hx r hyr, hm⟩
        · exact (hs.refs y hy r hyr).imp_left fun h => ⟨h.1, mem_cons_of_mem _ h.2⟩
      · simp only [storeGroups, flatMap_cons, itemEntries, singleton_append, filter_cons]
        split
        · rw [flatMap_cons, flatMap_cons, ht, hs.tasks]
        · exact hs.tasks
    | inr g =>
      have hs := hrs (Nat.le_succ_of_le hb)
      have hp' := hp g (mem_cons_self ..)
      have hn : ∀ y ∈ (storeGroups tickets (ref + 1) items).1, y.ticketRef ≠ some ref := by
        intro y hy hyr
        rcases hs.refs y hy ref hyr with ⟨hlt, -⟩ | hle <;> omega
      have hv : TicketValid (g.entry ref) g.ticket :=
        ⟨rfl, rfl, hso.sublist (sublist_append_left ..), hp'⟩
      refine ⟨fun r hr => ?_, fun y hy r hyr => ?_, ?_, ?_, ?_⟩
      · simp only [storeGroups, update_of_ne (Nat.ne_of_lt hr)]
        exact hs.old r (Nat.lt_succ_of_lt hr)
      · rcases mem_cons.mp hy with rfl | hy
        · exact .inr (Nat.le_of_eq (some.inj hyr))
        · rcases hs.refs y hy r hyr with ⟨hlt, hm⟩ | hle
          · exact .inl ⟨hlt, mem_append_right _ hm⟩
          · exact .inr (Nat.le_of_succ_le hle)
      · refine Joins.cons (fun r hr => ?_) (hs.live.update_of_ne hn)
        obtain rfl : ref = r := some.inj hr
        exact ⟨by simpa [storeGroups] using hv, hn⟩
      · simp only [flatMap_cons, map_append]
        exact (hs.keys.trans (sublist_append_right ..)).cons_cons _
      · simp only [storeGroups, flatMap_cons, itemEntries, filter_append,
          flatMap_append, flatMap_tasks_plain hp']
        rw [filter_cons, isCancelled_eq_false s hv.uncancelable]
        simp only [Bool.not_false, if_true, flatMap_cons]
        rw [flatMap_congr fun y hy => tasks_update (hn y (mem_of_mem_filter hy)), hs.tasks]
        rw [@tasks_of_ref _ _ ref rfl, update_self, Group.ticket_remaining]

theorem compactBatchableGroups_valid (s : CancellationSlots) (v : Bool) (h : Valid tickets q)
    (hd : q.dispatchingTicket = none)
    (hfr : ∀ x ∈ q.live, ∀ r, x.ticketRef = some r → r < ref) :
    Valid (q.compactBatchableGroups tickets ref v).2 (q.compactBatchableGroups tickets ref v).1 ∧
      (q.compactBatchableGroups tickets ref v).1.dispatchingTicket = none ∧
      (q.compactBatchableGroups tickets ref v).1.logical s
        (q.compactBatchableGroups tickets ref v).2 = q.logical s tickets := by
  rw [compactBatchableGroups]
  split
  · next hg =>
    simp only [Bool.and_eq_true, decide_eq_true_eq, List.isEmpty_iff] at hg
    obtain ⟨⟨⟨hp, hc⟩, hin⟩, -⟩ := hg
    have hso := h.settled hp
    have hb : q.bulk = q.entries := by rw [bulk, hc, drop_zero]
    have hl : q.live = q.entries := by rw [live, hb, hin, List.append_nil]
    obtain ⟨hf, hpl⟩ := cutGroups_spec q.entries.length 0 q.entries
    have hs := storeGroups_stored s ref le_rfl hpl
      (fun x hx => hfr x (by
        rw [hl, ← hf]
        exact mem_flatMap.mpr ⟨_, hx, mem_singleton_self x⟩))
      (hf.symm ▸ hl ▸ h.live) (hf.symm ▸ hb ▸ h.sorted hso)
    set stored := storeGroups tickets ref (cutGroups q.entries.length 0 q.entries)
    set q' : WorkQueue := { q with entries := stored.1 } with hq'
    have hb' : q'.bulk = stored.1 := by simp [bulk, hq', hc]
    have hl' : q'.live = stored.1 := by
      rw [live, hb']
      simp [hq', hin, append_nil]
    refine ⟨.of_prepared ?_ hp hso hd ?_ h.heap ?_, hd, ?_⟩
    · simp [hc]
    · rw [hb']
      have hk : ((q.entries).map key).Pairwise (· ≤ ·) :=
        pairwise_map.mpr (hb ▸ h.sorted hso)
      exact pairwise_map.mp (hk.sublist (hf ▸ hs.keys))
    · exact hl' ▸ hs.live
    · rw [logical_eq (q := q') hd, logical_eq hd, hl', hl, tasksOf, hs.tasks, hf]
      rfl
  · exact ⟨h, hd, rfl⟩

section Gain
variable {ticket : BatchTicket} {x : Entry} {members : List Entry}

theorem showFirst_split (tickets : Tickets) {l : List Entry} (hx : x ∈ l)
    (hr : x.ticketRef = some ref) :
    ∃ pre y post, l = pre ++ y :: post ∧ y.ticketRef = some ref ∧
      showFirst tickets ref l = pre ++ showMember y { tickets ref with cursor := 0 } :: post := by
  induction l with
  | nil => cases hx
  | cons head l ih =>
    by_cases hh : head.ticketRef = some ref
    · exact ⟨[], head, l, rfl, hh, by simp [showFirst, hh]⟩
    · have hx' : x ∈ l := by
        rcases mem_cons.mp hx with rfl | hx
        · exact absurd hr hh
        · exact hx
      obtain ⟨pre, y, post, rfl, hy, he⟩ := ih hx'
      exact ⟨head :: pre, y, post, rfl, hy, by simp [showFirst, hh, he]⟩

theorem gain_valid (s : CancellationSlots) (h : Valid tickets q) (hid : q.prepared = false)
    (hx : x ∈ q.live) (hre : x.ticketRef = some ref) (hc : ticket.cursor = 0)
    (hg : ticket.remaining.Perm ((tickets ref).remaining ++ members))
    (hso : Sorted ticket.remaining)
    (hpl : ∀ m ∈ members, m.cancellation = none ∧ m.ticketRef = none) :
    ∃ q', q.refreshReadinessTicketKey (update tickets ref ticket) ref = some q' ∧
      Valid (update tickets ref ticket) q' ∧ q'.dispatchingTicket = none ∧
      (q'.logical s (update tickets ref ticket)).Perm (members ++ q.logical s tickets) := by
  obtain ⟨hz, hin, hd⟩ := h.idle hid
  have hli : q.live = q.entries := by rw [live, bulk, hz, hin]; simp
  have hold := h.live
  rw [hli] at hx hold
  set tickets' := update tickets ref ticket with ht'
  have ht : tickets' ref = ticket := update_self ..
  obtain ⟨pre, y, post, he, hy, hsho⟩ := showFirst_split tickets' hx hre
  have hn : ticket.remaining ≠ [] := by
    intro hni
    have hn' := append_eq_nil_iff.mp (nil_perm.mp (hni ▸ hg))
    exact remaining_ne_nil hold hx hre hn'.1
  have hco : (tickets' ref).count ≠ 0 := by
    rw [ht]
    have := cursor_lt_count_iff.mpr hn
    omega
  have hrf : q.refreshReadinessTicketKey tickets' ref =
      some { q with entries := showFirst tickets' ref q.entries, needsSort := true } := by
    have han : q.entries.any (fun e => e.ticketRef = some ref) = true :=
      any_eq_true.mpr ⟨x, hx, by simpa using hre⟩
    simp [refreshReadinessTicketKey, hid, han, hco]
  have hze : ({ tickets' ref with cursor := 0 } : BatchTicket) = ticket := by rw [ht, ← hc]
  rw [hze] at hsho
  have hpe : q.entries.Perm (y :: (pre ++ post)) := he ▸ perm_middle
  have hl := hold.of_perm hpe.symm
  have hv := hl.ticket y (mem_cons_self ..) ref hy
  have hs : TicketValid (showMember y ticket) ticket :=
    showMember_valid hv.uncancelable hn hso fun m hm =>
      (mem_append.mp (hg.subset hm)).elim (hv.members m) (hpl m)
  obtain ⟨hl', hta⟩ := hl.replace s hy (showMember_ticketRef.trans hy) hs
    (show (showFirst tickets' ref q.entries).Perm _ from hsho ▸ perm_middle)
  set q' : WorkQueue := { q with entries := showFirst tickets' ref q.entries, needsSort := true }
  have hli' : q'.live = showFirst tickets' ref q.entries := by simp [live, bulk, q', hz, hin]
  refine ⟨q', hrf,
    ⟨?_, fun _ => ⟨hz, hin, hd⟩, fun hp => ?_, by rintro ⟨⟩, h.heap, hli' ▸ hl',
    fun r hr => ?_⟩, hd, ?_⟩
  · simp [q', hz]
  · exact absurd hp (by simp [q', hid])
  · exact absurd hr (by simp [q', hd])
  · have hb : (tasksOf s tickets q.entries).Perm
        ((tickets ref).remaining ++ tasksOf s tickets (pre ++ post)) := by
      rw [← tasks_of_ref hy, ← tasksOf_cons (isCancelled_eq_false s hv.uncancelable)]
      exact tasksOf_perm hpe
    rw [logical_eq (q := q') hd, hli', logical_eq hd, hli]
    refine hta.trans ((hg.append_right _).trans (.trans ?_ (hb.symm.append_left members)))
    rw [← append_assoc]
    exact perm_append_comm.append_right _

end Gain

section Dispatch
variable {d : BatchTicketDispatch} {r : List Entry} {n : ℕ}

theorem offered_le (q : WorkQueue) (ticket : BatchTicket) :
    q.offered ticket ≤ ticket.remaining.length := by
  rw [offered]
  split
  · exact ( rdropWhile_prefix ..).length_le
  · exact le_rfl

theorem bulk_of_getElem? (h : q.entries[q.cursor]? = some e) : ∃ r, q.bulk = e :: r := by
  rw [← head?_drop] at h
  exact ⟨_, head?_eq_some_iff.mp h |>.choose_spec⟩

theorem nextBatchTicketDispatch_spec (hn : (q.nextBatchTicketDispatch s tickets).2 = some d) :
    ∃ e r, (q.prepare s).bulk = e :: r ∧ e.ticketRef = some d.ticket ∧
      d.queueEntry = (q.prepare s).cursor ∧ (q.prepare s).dispatchingTicket = none ∧
      d.count ≤ (tickets d.ticket).remaining.length := by
  simp only [nextBatchTicketDispatch] at hn
  split at hn
  · next e hd he =>
    split at hn
    · next ref hr =>
      split at hn
      · cases hn
      · obtain rfl := some.inj hn
        obtain ⟨r, hb⟩ := bulk_of_getElem? he
        exact ⟨e, r, hb, hr, rfl, hd, offered_le ..⟩
    · cases hn
  · cases hn

theorem begin_valid (h : Valid tickets q)
    (hne : (q.nextBatchTicketDispatch s tickets).2 = some d) (hn : 0 < n) (hle : n ≤ d.count) :
    ∃ q', (q.prepare s).beginBatchTicketDispatch tickets { d with count := n } = some q' ∧
      Valid tickets q' ∧ q'.dispatchingTicket = some d.ticket ∧ d.queueEntry = q'.cursor ∧
      q'.dispatchingTicketCount = n := by
  obtain ⟨e, r, hb, hre, he, hd, hc⟩ := nextBatchTicketDispatch_spec hne
  obtain ⟨hv, -, hpr, -⟩ := prepare_spec s h
  set p := q.prepare s
  have hl : (tickets d.ticket).remaining.length =
      (tickets d.ticket).count - (tickets d.ticket).cursor := by
    rw [BatchTicket.remaining, length_drop]
    rfl
  have hbe : n ≠ 0 ∧ p.dispatchingTicket = none ∧ d.queueEntry = p.cursor ∧
      (p.entries[p.cursor]?.bind ticketRef) = some d.ticket ∧
      (tickets d.ticket).cursor + n ≤ (tickets d.ticket).count := by
    refine ⟨Nat.ne_of_gt hn, hd, he, ?_, by omega⟩
    rw [getElem?_of_bulk hb]
    exact hre
  refine ⟨_, if_pos hbe, ⟨hv.cursor_le, fun hp => ?_, hv.settled, hv.sorted,
    hv.heap, hv.live, fun ref hr => ?_⟩, rfl, he, rfl⟩
  · exact absurd hpr (by simpa using hp)
  · obtain rfl := some.inj hr
    exact ⟨e, r, hb, hre, hle.trans hc⟩

theorem showMember_eq_self {ticket : BatchTicket} (h : TicketValid e ticket) :
    showMember e ticket = e := by
  have hs := h.shown
  rw [showMember]
  split
  · next m ms hr =>
    rw [hr] at hs
    have hk : toLex (m.order, m.sequence) = toLex (e.order, e.sequence) :=
      some.inj hs
    obtain ⟨ho, hse⟩ := Prod.mk.inj (toLex.injective hk)
    rw [ho, hse]
  · rfl

theorem finish_of_front (hd : q.dispatchingTicket = some ref)
    (hf : (q.entries[q.cursor]?.bind Entry.ticketRef) = some ref) :
    q.finishBatchTicketDispatch = { q.repositionFrontTicket with
      dispatchingTicket := none, dispatchingTicketCount := 0 } := by
  rw [finishBatchTicketDispatch, if_pos ⟨by simp [hd], hf.trans hd.symm⟩]

theorem finish_of_other (hd : q.dispatchingTicket = some ref)
    (hf : (q.entries[q.cursor]?.bind Entry.ticketRef) ≠ some ref) : q.finishBatchTicketDispatch =
      { q with dispatchingTicket := none, dispatchingTicketCount := 0 } := by
  rw [finishBatchTicketDispatch, if_neg fun h => hf (h.2.trans hd)]

theorem finish_leave (n : ℕ) (h : Valid tickets q) (hd : q.dispatchingTicket = some d.ticket)
    (he : d.queueEntry = q.cursor) : (q.leave tickets d n).2 = advance tickets d.ticket n ∧
      (q.leave tickets d n).1.finishBatchTicketDispatch =
        { q.leaveFront (advance tickets d.ticket n) d.ticket with
          dispatchingTicket := none, dispatchingTicketCount := 0 } := by
  obtain ⟨e, r, hb, hr, -⟩ := h.dispatch d.ticket hd
  simp only [leave, he]
  split
  · next hc =>
    refine ⟨rfl, ?_⟩
    have hf : ((q.entries.modify q.cursor
        (showMember · (advance tickets d.ticket n d.ticket)))[q.cursor]?.bind ticketRef) =
          some d.ticket := by
      rw [← head?_drop, drop_modify _ hb]
      exact showMember_ticketRef.trans hr
    rw [leaveFront, if_pos hc]
    exact finish_of_front hd hf
  · next hc =>
    refine ⟨rfl, ?_⟩
    have hn : (q.entries[q.cursor + 1]?.bind ticketRef) ≠ some d.ticket := by
      rw [← head?_drop, drop_succ_of_bulk hb]
      cases r with
      | nil => simp
      | cons y r => exact (h.live_cons hb).ref_ne hr y (by simp)
    rw [leaveFront, if_neg hc]
    exact finish_of_other hd hn

theorem finish_eq (h : Valid tickets q) (hd : q.dispatchingTicket = some ref) :
    tickets = advance tickets ref 0 ∧ q.finishBatchTicketDispatch =
      { q.leaveFront (advance tickets ref 0) ref with
        dispatchingTicket := none, dispatchingTicketCount := 0 } := by
  obtain ⟨e, r, hb, hr, -⟩ := h.dispatch ref hd
  have hl := h.live_cons hb
  have hv := hl.ticket e (mem_cons_self ..) ref hr
  have hc := cursor_lt_count_iff.mpr (remaining_ne_nil hl (mem_cons_self ..) hr)
  have hs : q.entries.modify q.cursor (showMember · (tickets ref)) = q.entries := by
    have hdr := drop_modify (showMember · (tickets ref)) hb
    rw [← take_append_drop q.cursor (q.entries.modify q.cursor _), hdr, take_modify_self,
      showMember_eq_self hv, ← hb, bulk, take_append_drop]
  have ha : advance tickets ref 0 = tickets := by simp [advance]
  rw [ha, leaveFront, if_pos hc, hs]
  exact ⟨rfl, finish_of_front hd (by rw [getElem?_of_bulk hb]; exact hr)⟩

end Dispatch

end WorkQueue

end FsimRuntime.Queue
