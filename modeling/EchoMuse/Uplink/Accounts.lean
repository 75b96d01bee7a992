import EchoMuse.Uplink.Delivery

/-!
# Accounts and the Queue They Count

An outbox counts, for every subscription, the deliveries waiting for it. `queued` reads the
same off the queue itself; `Outbox.Booked` says that the counters and the queue agree.

## Main results

* `Outbox.Booked.push`, `Outbox.Booked.drain`, `Outbox.Booked.discardChunks`: what keeps them in
  agreement;
* `Outbox.Booked.discardChunksOf`: dropping one subscription's chunks does when none of its end
  notices waits;
* `Outbox.Booked.drainChecked`: taking the queue subtracts nothing that was not counted.
-/

namespace EchoMuse.Uplink

/-! ### What is queued -/

/-- What waits for a subscription, read off the queue. -/
def queued (queue : List Delivery) (id : SubscriptionId) : Backlog :=
  ⟨queue.countP (·.subscription = id),
    ((queue.filter (·.subscription = id)).map Delivery.payloadBytes).sum⟩

/-- Whether a backlog is past a session's bounds. -/
def Backlog.over (b : Backlog) (maxBytes maxDeliveries : ℕ) : Bool :=
  maxBytes < b.payloadBytes || maxDeliveries < b.deliveries

@[simp]
theorem queued_nil (id : SubscriptionId) : queued [] id = ⟨0, 0⟩ := rfl

theorem queued_cons_self {d : Delivery} {id : SubscriptionId} (h : d.subscription = id)
    (queue : List Delivery) :
    queued (d :: queue) id =
      ⟨(queued queue id).deliveries + 1, d.payloadBytes + (queued queue id).payloadBytes⟩ := by
  simp [queued, h]

theorem queued_cons_other {d : Delivery} {id : SubscriptionId} (h : d.subscription ≠ id)
    (queue : List Delivery) : queued (d :: queue) id = queued queue id := by
  simp [queued, h]

theorem queued_concat_self {d : Delivery} {id : SubscriptionId} (h : d.subscription = id)
    (queue : List Delivery) :
    queued (queue ++ [d]) id =
      ⟨(queued queue id).deliveries + 1, (queued queue id).payloadBytes + d.payloadBytes⟩ := by
  simp [queued, h]

theorem queued_concat_other {d : Delivery} {id : SubscriptionId} (h : d.subscription ≠ id)
    (queue : List Delivery) : queued (queue ++ [d]) id = queued queue id := by
  simp [queued, h]

/-- Dropping what another subscription has waiting leaves this one's. -/
theorem queued_filter_of_keeps {p : Delivery → Bool} {id : SubscriptionId}
    {queue : List Delivery} (h : ∀ d ∈ queue, d.subscription = id → p d = true) :
    queued (queue.filter p) id = queued queue id := by
  induction queue with
  | nil => rfl
  | cons d queue ih =>
      rw [List.forall_mem_cons] at h
      by_cases hid : d.subscription = id
      · rw [List.filter_cons_of_pos (h.1 hid), queued_cons_self hid, queued_cons_self hid, ih h.2]
      · rw [queued_cons_other hid, ← ih h.2]
        by_cases hp : p d = true
        · rw [List.filter_cons_of_pos hp, queued_cons_other hid]
        · rw [List.filter_cons_of_neg hp]

/-- Nothing waits for a subscription without a delivery in the queue. -/
theorem queued_eq_zero {queue : List Delivery} {id : SubscriptionId}
    (h : ∀ d ∈ queue, d.subscription ≠ id) : queued queue id = ⟨0, 0⟩ := by
  induction queue with
  | nil => rfl
  | cons d queue ih =>
      rw [List.forall_mem_cons] at h
      rw [queued_cons_other h.1, ih h.2]

/-- End notices take no bytes. -/
theorem queued_filter_isEnded (queue : List Delivery) (id : SubscriptionId) :
    queued (queue.filter Delivery.isEnded) id =
      ⟨(queue.filter Delivery.isEnded).countP (·.subscription = id), 0⟩ := by
  induction queue with
  | nil => rfl
  | cons d queue ih =>
      cases d with
      | chunk c =>
          rw [List.filter_cons_of_neg (by simp [Delivery.isEnded]), ih]
      | ended e =>
          rw [List.filter_cons_of_pos (by simp [Delivery.isEnded])]
          by_cases hid : e.subscription = id
          · rw [queued_cons_self (d := .ended e) hid, ih]
            simp [Delivery.payloadBytes, Delivery.subscription, hid]
          · rw [queued_cons_other (d := .ended e) hid, ih]
            simp [Delivery.subscription, hid]

namespace Outbox

/-- What a subscription has waiting by its account; `none` once its end was drained. -/
def backlog (o : Outbox) (id : SubscriptionId) : Option Backlog :=
  (o.accounts id).map Account.backlog

/-- Every subscription's account counts what is queued for it. -/
def Booked (o : Outbox) : Prop :=
  ∀ id, (o.backlog id).getD ⟨0, 0⟩ = queued o.queue id

/-- The account of a subscription after one of its deliveries was taken, with the counters'
subtractions checked: `none` when one of them underflows. -/
def takenChecked (account : Account) (delivery : Delivery) : Option (Option Account) :=
  if 1 ≤ account.backlog.deliveries ∧ delivery.payloadBytes ≤ account.backlog.payloadBytes then
    some (taken account delivery)
  else none

/-- One turn of the drain, with its subtractions checked. -/
def takeChecked (o : Outbox) (delivery : Delivery) : Option Outbox :=
  match o.accounts delivery.subscription with
  | some account =>
    (takenChecked account delivery).map fun a => o.setAccount delivery.subscription a
  | none => some o

/-- Takes every delivery queued, with the counters' subtractions checked. -/
def drainChecked (o : Outbox) : Option (Outbox × List Delivery) :=
  (o.queue.foldlM takeChecked { o with queue := [] }).map fun drained => (drained, o.queue)

/-! ### Accounts -/

variable {o : Outbox}

@[simp]
theorem accounts_setAccount_self (o : Outbox) (id : SubscriptionId) (account : Option Account) :
    (o.setAccount id account).accounts id = account := by
  simp [setAccount]

theorem accounts_setAccount_other (o : Outbox) {id i : SubscriptionId} (h : i ≠ id)
    (account : Option Account) : (o.setAccount id account).accounts i = o.accounts i := by
  simp [setAccount, h]

@[simp]
theorem queue_setAccount (o : Outbox) (id : SubscriptionId) (account : Option Account) :
    (o.setAccount id account).queue = o.queue := rfl

@[simp]
theorem queue_push (o : Outbox) (d : Delivery) : (o.push d).1.queue = o.queue ++ [d] := rfl

/-- The account of the delivery's subscription counts the delivery. -/
theorem backlog_push_self (o : Outbox) (d : Delivery) :
    (o.push d).1.backlog d.subscription =
      some ⟨((o.backlog d.subscription).getD ⟨0, 0⟩).deliveries + 1,
        ((o.backlog d.subscription).getD ⟨0, 0⟩).payloadBytes + d.payloadBytes⟩ := by
  cases h : o.accounts d.subscription <;> simp [push, backlog, setAccount, h, Account.default]

theorem backlog_push_other (o : Outbox) {d : Delivery} {id : SubscriptionId}
    (h : d.subscription ≠ id) : (o.push d).1.backlog id = o.backlog id := by
  simp [push, backlog, setAccount, Ne.symm h]

/-- The answer of a push: whether the account is within the bounds. -/
theorem push_snd (o : Outbox) (d : Delivery) :
    (o.push d).2 = !(((o.push d).1.backlog d.subscription).getD ⟨0, 0⟩).over o.maxBytes
      o.maxDeliveries := by
  rw [backlog_push_self]
  cases h : o.accounts d.subscription <;>
    simp only [Outbox.push, backlog, setAccount, h, Account.default, Backlog.over, Option.getD_none,
      Option.getD_some, Option.map_none, Option.map_some, Bool.not_or, ← decide_not, not_lt]

/-- One turn of the drain. -/
def take (o : Outbox) (delivery : Delivery) : Outbox :=
  match o.accounts delivery.subscription with
  | some account => o.setAccount delivery.subscription (taken account delivery)
  | none => o

theorem drain_eq (o : Outbox) :
    o.drain = (o.queue.foldl take { o with queue := [] }, o.queue) := rfl

theorem foldl_take (queue : List Delivery) (o : Outbox) :
    (queue.foldl take o).queue = o.queue ∧ (queue.foldl take o).maxBytes = o.maxBytes ∧
      (queue.foldl take o).maxDeliveries = o.maxDeliveries := by
  induction queue generalizing o with
  | nil => exact ⟨rfl, rfl, rfl⟩
  | cons d queue ih =>
      obtain ⟨hqueue, hbytes, hdeliveries⟩ := ih (o.take d)
      have hsame : (o.take d).queue = o.queue ∧ (o.take d).maxBytes = o.maxBytes ∧
          (o.take d).maxDeliveries = o.maxDeliveries := by
        rw [take]
        split <;> exact ⟨rfl, rfl, rfl⟩
      exact ⟨hqueue.trans hsame.1, hbytes.trans hsame.2.1, hdeliveries.trans hsame.2.2⟩

/-- A drain leaves nothing queued. -/
theorem queue_drain (o : Outbox) : o.drain.1.queue = [] :=
  (foldl_take o.queue { o with queue := [] }).1

namespace Booked

theorem push (h : o.Booked) (d : Delivery) : (o.push d).1.Booked := by
  intro id
  rw [queue_push]
  by_cases hid : d.subscription = id
  · subst hid
    rw [backlog_push_self, queued_concat_self rfl, ← h d.subscription]
    rfl
  · rw [backlog_push_other o hid, queued_concat_other hid]
    exact h id

/-- **A push answers false exactly when the queue is past the bounds** for the delivery's
subscription. -/
theorem push_snd (h : o.Booked) (d : Delivery) :
    (o.push d).2 =
      !(queued (o.queue ++ [d]) d.subscription).over o.maxBytes o.maxDeliveries := by
  rw [Outbox.push_snd, h.push d d.subscription, queue_push]

/-! ### Discards -/

theorem discardChunks (h : o.Booked) : o.discardChunks.Booked := by
  intro id
  rw [show o.discardChunks.queue = o.queue.filter Delivery.isEnded from rfl,
    queued_filter_isEnded]
  cases haccount : o.accounts id with
  | none =>
      have hzero : queued o.queue id = ⟨0, 0⟩ := by
        rw [← h id, backlog, haccount]
        rfl
      have hcount : o.queue.countP (·.subscription = id) = 0 := congrArg Backlog.deliveries hzero
      have hkept : (o.queue.filter Delivery.isEnded).countP (·.subscription = id) = 0 :=
        Nat.le_zero.mp (hcount ▸ List.filter_sublist.countP_le)
      simp [Outbox.discardChunks, backlog, haccount, hkept]
  | some account =>
      simp [Outbox.discardChunks, backlog, haccount]

/-- Dropping one subscription's chunks, when no end notice of it waits. -/
theorem discardChunksOf (h : o.Booked) {id : SubscriptionId}
    (hclear : ∀ d ∈ o.queue, d.subscription = id → d.isEnded = false) :
    (o.discardChunksOf id).Booked := by
  intro i
  have hqueue : (o.discardChunksOf id).queue =
      o.queue.filter fun d => d.subscription ≠ id || d.isEnded := rfl
  rw [hqueue]
  by_cases hi : i = id
  · subst hi
    have hgone : ∀ d ∈ o.queue.filter (fun d => d.subscription ≠ i || d.isEnded),
        d.subscription ≠ i := by
      intro d hd hsub
      rw [List.mem_filter] at hd
      simp [hsub, hclear d hd.1 hsub] at hd
    rw [queued_eq_zero hgone]
    cases haccount : o.accounts i <;>
      simp [Outbox.discardChunksOf, backlog, setAccount, haccount]
  · have hkeeps : ∀ d ∈ o.queue, d.subscription = i →
        (decide (d.subscription ≠ id) || d.isEnded) = true := by
      intro d _ hsub
      simp [hsub, hi]
    rw [queued_filter_of_keeps hkeeps, ← h i]
    simp [Outbox.discardChunksOf, backlog, setAccount, hi]

/-! ### Drains -/

/-- While the queue is taken, an account that is still there counts the rest of it. -/
theorem take_counted {o : Outbox} {d : Delivery} {queue : List Delivery}
    (h : ∀ id account, o.accounts id = some account →
      account.backlog = queued (d :: queue) id) :
    ∃ o', o.takeChecked d = some o' ∧ o.take d = o' ∧
      ∀ id account, o'.accounts id = some account → account.backlog = queued queue id := by
  cases haccount : o.accounts d.subscription with
  | none =>
      refine ⟨o, by rw [takeChecked, haccount], by rw [take, haccount], fun id account hid => ?_⟩
      have hother : d.subscription ≠ id := fun heq => by
        rw [heq, hid] at haccount
        cases haccount
      rw [h id account hid, queued_cons_other hother]
  | some account =>
      have hcount := h d.subscription account haccount
      rw [queued_cons_self rfl] at hcount
      have hchecked : takenChecked account d = some (taken account d) := by
        rw [takenChecked, hcount, if_pos ⟨Nat.le_add_left 1 _, Nat.le_add_right _ _⟩]
      refine ⟨o.setAccount d.subscription (taken account d), ?_, by rw [take, haccount],
        fun id account' hid => ?_⟩
      · simp only [takeChecked, haccount, hchecked, Option.map_some]
      · by_cases hsame : d.subscription = id
        · subst hsame
          rw [accounts_setAccount_self] at hid
          cases d with
          | ended e => cases hid
          | chunk c =>
              cases hid
              simp [hcount, Delivery.payloadBytes]
        · rw [accounts_setAccount_other o (Ne.symm hsame)] at hid
          rw [h id account' hid, queued_cons_other hsame]

/-- Taking the queue underflows no counter, and what is left counts nothing. -/
theorem take_all (queue : List Delivery) {o : Outbox}
    (h : ∀ id account, o.accounts id = some account → account.backlog = queued queue id) :
    queue.foldlM takeChecked o = some (queue.foldl take o) ∧
      ∀ id account, (queue.foldl take o).accounts id = some account →
        account.backlog = ⟨0, 0⟩ := by
  induction queue generalizing o with
  | nil => exact ⟨rfl, h⟩
  | cons d queue ih =>
      obtain ⟨o', hchecked, htake, hrest⟩ := take_counted h
      rw [List.foldlM_cons, hchecked, List.foldl_cons, htake]
      exact ih hrest

theorem account (h : o.Booked) (id : SubscriptionId) (account : Account)
    (haccount : o.accounts id = some account) : account.backlog = queued o.queue id := by
  rw [← h id, backlog, haccount]
  rfl

/-- **A drain underflows no counter.** -/
theorem drainChecked (h : o.Booked) : o.drainChecked = some o.drain := by
  rw [Outbox.drainChecked, (take_all o.queue (o := { o with queue := [] }) h.account).1]
  rfl

theorem drain (h : o.Booked) : o.drain.1.Booked := by
  intro id
  have hqueue : o.drain.1.queue = [] := queue_drain o
  have hzero := (take_all o.queue (o := { o with queue := [] }) h.account).2 id
  rw [hqueue, queued_nil, backlog]
  cases haccount : o.drain.1.accounts id with
  | none => rfl
  | some account => exact hzero account haccount

end Booked

end Outbox

end EchoMuse.Uplink
