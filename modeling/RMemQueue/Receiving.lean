import RMemQueue.Clients
import RMemQueue.GroupDelivery

/-!
# Calls and the operations that they make

What the operations of a client call are, and what its result says about them.  A call that waits for a message makes
passes over the assignment that find nothing, and ends with the pass that finds something: so that a message that a
pass takes off a partition is the one that the call returns, or one that a typed consumer refuses, however the call is
interrupted.
-/

namespace RMemQueue

open Conc
open Script (Leads Consists leads_done_iff leads_one leads_map)

/-! ### Waiting for a message -/

/-- A pass over the assignment of consumer `i` that finds nothing. -/
def idlePass (i : Nat) : Op × Outcome RmqError Reply := (.consumer i .pollOnce, .ok (.message none))

/-- The script passes over the assignment of consumer `i` until a pass finds something, or gives up. -/
inductive Passes (i : Nat) (ready : StoredMessage → RmqResult Receipt) : ReceiveScript → Prop
  | stop {o : Outcome RmqError (Option Receipt)} (ho : ∀ receipt, o ≠ .ok (some receipt)) : Passes i ready (.done o)
  | pass {rest : ReceiveScript} (hrest : Passes i ready rest) : Passes i ready (onPolled i ready rest)

theorem Passes.leads {i : Nat} {ready : StoredMessage → RmqResult Receipt} {s s' : ReceiveScript} {h : Calls}
    (hs : Passes i ready s) (hl : Leads s h s') :
    (∃ k, h = List.replicate k (idlePass i) ∧ Passes i ready s') ∨
      ∃ k o, h = List.replicate k (idlePass i) ++ [(.consumer i .pollOnce, o)] ∧ o ≠ .ok (.message none) ∧
        s' = .done (polled ready o) := by
  induction hs generalizing h with
  | stop ho =>
    obtain ⟨rfl, rfl⟩ := leads_done_iff.1 hl
    exact Or.inl ⟨0, rfl, .stop ho⟩
  | @pass rest hrest ih =>
    cases hl with
    | nil => exact Or.inl ⟨0, rfl, .pass hrest⟩
    | @cons _ _ o h _ hk =>
      by_cases ho : o = .ok (.message none)
      · subst ho
        rcases ih hk with ⟨k, rfl, hs'⟩ | ⟨k, o, rfl, ho, hs'⟩
        · exact Or.inl ⟨k + 1, rfl, hs'⟩
        · exact Or.inr ⟨k + 1, o, rfl, ho, hs'⟩
      · have hdone : Leads (.done (polled ready o)) h s' := by
          rcases o with (_ | _ | m | _ | _ | _) | _ | _
          · exact hk
          · exact hk
          · cases m with
            | none => exact absurd rfl ho
            | some m => exact hk
          · exact hk
          · exact hk
          · exact hk
          · exact hk
          · exact hk
        obtain ⟨rfl, rfl⟩ := leads_done_iff.1 hdone
        exact Or.inr ⟨0, o, rfl, ho, rfl⟩

theorem PollCall.passes_script (call : PollCall) (i : Nat) (ready : StoredMessage → RmqResult Receipt) :
    Passes i ready (call.script i ready) := by
  have hloop : ∀ left k, Passes i ready (call.loopFor i ready k left) := by
    intro left
    induction left with
    | zero => exact fun k => .pass (.stop (by simp))
    | succ left ih =>
      intro k
      refine .pass ?_
      split
      · exact .stop (by simp)
      · exact ih (k + 1)
  unfold script
  split
  · exact .stop (by simp)
  · exact hloop _ _

private theorem passes_recvScript (i : Nat) (ready : StoredMessage → RmqResult Receipt)
    (waits : List (RmqResult Unit)) : Passes i ready (recvScript i ready waits) := by
  induction waits with
  | nil => exact .pass (.stop (by simp))
  | cons wait waits ih =>
    cases wait with
    | ok _ => exact .pass ih
    | error e => exact .pass (.stop (by simp))

theorem Receive.passes_script (i : Nat) (r : Receive) : Passes i r.ready (r.script i) := by
  cases r with
  | poll call => exact call.passes_script i _
  | typedPoll call => exact call.passes_script i _
  | recv waits => exact passes_recvScript i _ waits

/-! ### All calls -/

section

variable {τ : Type} {El : τ → Type}

/-- The calls that a thread has ended. -/
abbrev ClientCalls (El : τ → Type) := List (ClientCall El × Outcome RmqError (Returned El))

/-- The record that an ended operation has stored. -/
def sentRecord : Op × Outcome RmqError Reply → Option (ProduceCall × RecordMetadata)
  | (.send call, .ok (.record metadata)) => some (call, metadata)
  | _ => none

/-- The metadata that a producer has returned. -/
def Returned.metadata? : Returned El → Option RecordMetadata
  | .sent _ _ (.ok metadata) _ => some metadata
  | .future (.ok metadata) => some metadata
  | .stream (.ok metadata) => some metadata
  | .typed (.ok metadata) => some metadata
  | _ => none

/-- The receipt that a call on consumer `i` has returned. -/
def receiptOf (i : Nat) : ClientCall El × Outcome RmqError (Returned El) → Option Receipt
  | (.receive c _, .ok (.received receipt)) => if c = i then receipt else none
  | _ => none

def receiptsOf (i : Nat) (h : ClientCalls El) : List Receipt := h.filterMap (receiptOf i)

@[simp] theorem receiptsOf_append (i : Nat) (h h' : ClientCalls El) :
    receiptsOf i (h ++ h') = receiptsOf i h ++ receiptsOf i h' :=
  List.filterMap_append

/-- The partitions that are paused after the calls. -/
def pausedAfterCalls (start : Finset (String × Int)) (h : ClientCalls El) : Finset (String × Int) :=
  h.foldl (fun paused e =>
    match e.1 with
    | .request _ (.pause l) _ => paused ∪ l.keys.toFinset
    | .request _ (.resume l) _ => paused \ l.keys.toFinset
    | _ => paused) start

/-- A typed consumer has refused a message. -/
def refusal (i : Nat) (call : PollCall) : ClientCall El × Outcome RmqError (Returned El) :=
  (.receive i (.typedPoll call), .err (.custom "message has raw bytes payload, not typed"))

variable [∀ a, ToBytes (El a)]

/-- The record that an ended call has reported. -/
def reportedRecord : ClientCall El × Outcome RmqError (Returned El) → Option (ProduceCall × RecordMetadata)
  | (c, .ok r) => c.produceCall?.bind fun call => r.metadata?.map (call, ·)
  | _ => none

namespace ClientCall

/-- The operations that a call may make. -/
def Makes : ClientCall El → Op → Prop
  | receive i _, op => op = .consumer i .pollOnce
  | request i r _, op => op = .consumer i r
  | shutdown, op => op = .shutdown
  | c, op => ∃ call, c.produceCall? = some call ∧ op = .send call

theorem Makes.actor {c : ClientCall El} {op : Op} (h : c.Makes op) : op.actor = c.actor := by
  cases c with
  | send | future | stream | typed =>
    obtain ⟨call, -, rfl⟩ := h
    rfl
  | receive | request | shutdown =>
    obtain rfl := h
    rfl

/-- The call has failed, and returns what it was given. -/
def HandsBack : ClientCall El → Returned El → Prop
  | send k p record _, r => ∃ e delivery, r = .sent k p (.error (e, record)) delivery ∧
      delivery.result = .error (e, record.undelivered)
  | future _ _ record _, r => ∃ e, r = .future (.error (e, record.undelivered))
  | stream record _, r => ∃ e, r = .stream (.error (e, record))
  | typed .., r => ∃ e, r = .typed (.error e)
  | _, _ => False

/-- The call has returned: the metadata of its record, or what it was given. -/
def Settles (c : ClientCall El) (o : Outcome RmqError (Returned El)) : Prop :=
  o = .panic ∨ ∃ r, o = .ok r ∧ ((∃ metadata, r.metadata? = some metadata) ∨ c.HandsBack r)

/-- A call that is no `receive` makes one operation and tells how it has ended. -/
structure Tells (c : ClientCall El) (op : Op) (answer : Outcome RmqError Reply → Outcome RmqError (Returned El)) :
    Prop where
  script : c.script = .call op fun o => .done (answer o)
  makes : c.Makes op
  reported : ∀ o, reportedRecord (c, answer o) = sentRecord (op, o)
  settles : ∀ call, c.produceCall? = some call → ∀ o, c.Settles (answer o)
  paused : ∀ start o, pausedAfterCalls start [(c, answer o)] = pausedAfter start [(op, o)]
  poll : ∀ i, op ≠ .consumer i .pollOnce
  receive : ∀ i r, c ≠ .receive i r

/-- What a producer makes of how its operation has ended. -/
private def answer {β : Type} (finish : RmqResult RecordMetadata → β) : Outcome RmqError Reply → Outcome RmqError β
  | .ok (.record r) => .ok (finish (.ok r))
  | .err e => .ok (finish (.error e))
  | _ => .panic

private theorem produceThen_eq {β : Type} (call : ProduceCall) (finish : RmqResult RecordMetadata → β) :
    produceThen call finish = .call (.send call) fun o => .done (answer finish o) := by
  unfold produceThen
  congr 1
  funext o
  rcases o with (_ | _ | _ | _ | _ | _) | _ | _ <;> rfl

private theorem tells_producer {c : ClientCall El} {call : ProduceCall} (finish : RmqResult RecordMetadata → Returned El)
    (hs : c.script = produceThen call finish) (hcall : c.produceCall? = some call) (hm : c.Makes (.send call))
    (hok : ∀ r, (finish (.ok r)).metadata? = some r) (herr : ∀ e, (finish (.error e)).metadata? = none)
    (hback : ∀ e, c.HandsBack (finish (.error e)))
    (hp : ∀ start o, pausedAfterCalls start [(c, o)] = start) (hr : ∀ i r, c ≠ .receive i r) :
    c.Tells (.send call) (answer finish) where
  script := hs.trans (produceThen_eq call finish)
  makes := hm
  reported o := by
    rcases o with (_ | _ | _ | _ | _ | _) | _ | _ <;> simp [answer, reportedRecord, sentRecord, hcall, hok, herr]
  settles call' hcall' o := by
    rcases o with (_ | r | _ | _ | _ | _) | e | _
    · exact Or.inl rfl
    · exact Or.inr ⟨_, rfl, Or.inl ⟨r, hok r⟩⟩
    · exact Or.inl rfl
    · exact Or.inl rfl
    · exact Or.inl rfl
    · exact Or.inl rfl
    · exact Or.inr ⟨_, rfl, Or.inr (hback e)⟩
    · exact Or.inl rfl
  paused start o := hp start _
  poll i h := nomatch h
  receive := hr

theorem tells (c : ClientCall El) : (∃ i r, c = .receive i r) ∨ ∃ op answer, c.Tells op answer := by
  cases c with
  | receive i r => exact Or.inl ⟨i, r, rfl⟩
  | send k p record clock =>
    exact Or.inr ⟨_, _, tells_producer (fun r => .sent k p (BaseProducer.finish record r).1 (BaseProducer.finish record r).2)
      rfl rfl ⟨_, rfl, rfl⟩ (fun _ => rfl) (fun _ => rfl) (fun _ => ⟨_, _, rfl, rfl⟩)
      (fun _ _ => rfl) (by simp)⟩
  | future k p record clock =>
    exact Or.inr ⟨_, _, tells_producer (fun r => .future (FutureProducer.finish record r))
      rfl rfl ⟨_, rfl, rfl⟩ (fun _ => rfl) (fun _ => rfl) (fun _ => ⟨_, rfl⟩)
      (fun _ _ => rfl) (by simp)⟩
  | stream record clock =>
    exact Or.inr ⟨_, _, tells_producer (fun r => .stream (StreamProducer.finish record r))
      rfl rfl ⟨_, rfl, rfl⟩ (fun _ => rfl) (fun _ => rfl) (fun _ => ⟨_, rfl⟩)
      (fun _ _ => rfl) (by simp)⟩
  | typed =>
    exact Or.inr ⟨_, _, tells_producer (.typed)
      rfl rfl ⟨_, rfl, rfl⟩ (fun _ => rfl) (fun _ => rfl) (fun _ => ⟨_, rfl⟩)
      (fun _ _ => rfl) (by simp)⟩
  | request i r hr =>
    refine Or.inr ⟨.consumer i r, fun o => o.map .reply, rfl, rfl, fun o => ?_, fun _ h => (nomatch h),
      fun start o => ?_, fun j h => ?_, by simp⟩
    · rcases o with _ | _ | _ <;> rfl
    · cases r <;> rfl
    · exact hr (Op.consumer.inj h).2
  | shutdown =>
    refine Or.inr ⟨.shutdown, fun o => o.map .reply, rfl, rfl, fun o => ?_, fun _ h => (nomatch h),
      fun _ _ => rfl, by simp, by simp⟩
    rcases o with _ | _ | _ <;> rfl

theorem all_script (c : ClientCall El) : c.script.All c.Makes := by
  rcases c.tells with ⟨i, r, rfl⟩ | ⟨op, answer, h⟩
  · have hpass : ∀ s : ReceiveScript, Passes i r.ready s →
        s.All (receive i r : ClientCall El).Makes := by
      intro s hs
      induction hs with
      | stop => trivial
      | pass hrest ih =>
        refine ⟨rfl, fun o => ?_⟩
        dsimp only
        split
        · exact ih
        · trivial
    exact (hpass _ (r.passes_script i)).map
  · rw [h.script]
    exact ⟨h.makes, fun _ => trivial⟩

end ClientCall

/-! ### What a call has taken off -/

@[simp] theorem deliveredTo_idle (i j k : Nat) : deliveredTo i (List.replicate k (idlePass j)) = [] := by
  refine List.eq_nil_iff_forall_not_mem.2 fun m hm => ?_
  have he := List.eq_of_mem_replicate (mem_deliveredTo.1 hm)
  simp [idlePass] at he

private theorem filterMap_sentRecord_idle (j k : Nat) :
    (List.replicate k (idlePass j)).filterMap sentRecord = [] := by
  rw [List.filterMap_replicate]
  rfl

@[simp] theorem pausedAfter_idle (start : Finset (String × Int)) (j k : Nat) :
    pausedAfter start (List.replicate k (idlePass j)) = start := by
  induction k with
  | zero => rfl
  | succ k ih => exact ih

/-- The operations that a call on a consumer has made when it has ended. -/
theorem leads_receive {j : Nat} {r : Receive} {h : Calls} {o : Outcome RmqError (Returned El)}
    (hl : Leads (ClientCall.receive j r : ClientCall El).script h (.done o)) :
    (∃ k, h = List.replicate k (idlePass j) ∧ ∀ receipt, o ≠ .ok (.received (some receipt))) ∨
      ∃ k o', h = List.replicate k (idlePass j) ++ [(.consumer j .pollOnce, o')] ∧
        o = (polled r.ready o').map .received := by
  obtain ⟨s, hs, hdone⟩ := leads_map hl
  rcases (r.passes_script j).leads hs with ⟨k, rfl, hp⟩ | ⟨k, o', rfl, -, rfl⟩
  · refine Or.inl ⟨k, rfl, fun receipt ho => ?_⟩
    cases hp with
    | pass => cases hdone
    | @stop o' ho' =>
      obtain rfl := Script.done.inj hdone
      rcases o' with r | _ | _
      · obtain rfl := Returned.received.inj (Outcome.ok.inj ho)
        exact ho' receipt rfl
      · cases ho
      · cases ho
  · exact Or.inr ⟨k, o', rfl, Script.done.inj hdone⟩

/-- A call that has not ended has taken nothing off and stored nothing. -/
theorem leads_busy {c : ClientCall El} {h : Calls} {op : Op}
    {k : Outcome RmqError Reply → Script Op RmqError Reply (Returned El)} (hl : Leads c.script h (.call op k)) :
    (∀ i, deliveredTo i h = []) ∧ h.filterMap sentRecord = [] := by
  rcases c.tells with ⟨j, r, rfl⟩ | ⟨op', answer, hc⟩
  · obtain ⟨s, hs, hcall⟩ := leads_map hl
    rcases (r.passes_script j).leads hs with ⟨n, rfl, -⟩ | ⟨n, o, rfl, -, rfl⟩
    · exact ⟨fun i => deliveredTo_idle i j n, filterMap_sentRecord_idle j n⟩
    · cases hcall
  · rw [hc.script] at hl
    rcases leads_one hl with ⟨rfl, -⟩ | ⟨o, rfl, hdone⟩
    · exact ⟨fun i => rfl, rfl⟩
    · cases hdone

/-- The calls `hs` on consumer `i` have made the operations `h`; `drawn` are the messages that these have taken off,
each with the receipt that was returned for it, or refused. -/
structure Hands (i : Nat) (hs : ClientCalls El) (h : Calls) (drawn : List (StoredMessage × Option Receipt)) :
    Prop where
  delivered : deliveredTo i h = drawn.map Prod.fst
  received : receiptsOf i hs = drawn.filterMap Prod.snd
  shown : ∀ m receipt, (m, some receipt) ∈ drawn → receipt.Shows m
  refused : ∀ m, (m, none) ∈ drawn → m.hasTypedPayload = false ∧ ∃ call, refusal i call ∈ hs

omit [∀ a, ToBytes (El a)] in
theorem Hands.append {i : Nat} {hs hs' : ClientCalls El} {h h' : Calls}
    {drawn drawn' : List (StoredMessage × Option Receipt)} (hd : Hands i hs h drawn) (hd' : Hands i hs' h' drawn') :
    Hands i (hs ++ hs') (h ++ h') (drawn ++ drawn') where
  delivered := by rw [deliveredTo_append, hd.delivered, hd'.delivered, List.map_append]
  received := by rw [receiptsOf_append, hd.received, hd'.received, List.filterMap_append]
  shown m receipt hm := (List.mem_append.1 hm).elim (hd.shown m receipt) (hd'.shown m receipt)
  refused m hm := by
    rcases List.mem_append.1 hm with hm | hm
    · obtain ⟨hraw, call, hcall⟩ := hd.refused m hm
      exact ⟨hraw, call, List.mem_append_left _ hcall⟩
    · obtain ⟨hraw, call, hcall⟩ := hd'.refused m hm
      exact ⟨hraw, call, List.mem_append_right _ hcall⟩

omit [∀ a, ToBytes (El a)] in
private theorem hands_nil {i : Nat} {e : ClientCall El × Outcome RmqError (Returned El)} {h : Calls}
    (hd : deliveredTo i h = []) (hr : receiptOf i e = none) : Hands i [e] h [] :=
  ⟨hd, by simp [receiptsOf, hr], by simp, by simp⟩

omit [∀ a, ToBytes (El a)] in
private theorem hands_pass (El : τ → Type) (i : Nat) (r : Receive) (o : Outcome RmqError Reply) : ∃ drawn,
    Hands i [((.receive i r, (polled r.ready o).map .received) : ClientCall El × Outcome RmqError (Returned El))]
      [(.consumer i .pollOnce, o)] drawn := by
  by_cases hm : ∃ m, o = .ok (.message (some m))
  · obtain ⟨m, rfl⟩ := hm
    have hdel : deliveredTo i [((.consumer i .pollOnce, .ok (.message (some m))) : Op × Outcome RmqError Reply)] =
        [m] := by
      simp [deliveredTo, delivered, Op.actor]
    rcases r.ready_cases m with ⟨receipt, hready, hshows⟩ | ⟨⟨call, rfl⟩, hraw, hready⟩
    · refine ⟨[(m, some receipt)], hdel, ?_, ?_, by simp⟩
      · simp [receiptsOf, receiptOf, polled, hready, Outcome.map]
      · intro m' receipt' hmem
        obtain ⟨rfl, rfl⟩ : m' = m ∧ receipt' = receipt := by simpa using hmem
        exact hshows
    · refine ⟨[(m, none)], hdel, ?_, by simp, ?_⟩
      · simp [receiptsOf, receiptOf, polled, hready, Outcome.map]
      · intro m' hmem
        obtain rfl : m' = m := by simpa using hmem
        refine ⟨hraw, call, ?_⟩
        simp [refusal, polled, hready, Outcome.map]
  · have hdel : deliveredTo i [((.consumer i .pollOnce, o) : Op × Outcome RmqError Reply)] = [] := by
      refine List.eq_nil_iff_forall_not_mem.2 fun m hmem => hm ⟨m, ?_⟩
      exact (Prod.mk.inj (List.mem_singleton.1 (mem_deliveredTo.1 hmem))).2.symm
    refine ⟨[], hands_nil hdel ?_⟩
    rcases o with (_ | _ | m | _ | _ | _) | _ | _
    · rfl
    · rfl
    · cases m with
      | none => rfl
      | some m => exact absurd ⟨m, rfl⟩ hm
    · rfl
    · rfl
    · rfl
    · rfl
    · rfl

omit [∀ a, ToBytes (El a)] in
theorem Hands.mem {i : Nat} {hs : ClientCalls El} {h : Calls} {drawn : List (StoredMessage × Option Receipt)}
    (hd : Hands i hs h drawn) {receipt : Receipt} (hr : receipt ∈ receiptsOf i hs) :
    ∃ m ∈ deliveredTo i h, receipt.Shows m := by
  rw [hd.received, List.mem_filterMap] at hr
  obtain ⟨⟨m, x⟩, hm, hx⟩ := hr
  obtain rfl : x = some receipt := hx
  refine ⟨m, ?_, hd.shown m receipt hm⟩
  rw [hd.delivered]
  exact List.mem_map.2 ⟨_, hm, rfl⟩

omit [∀ a, ToBytes (El a)] in
/-- Receipts come in the order in which the messages are taken off. -/
theorem Hands.increasing {i : Nat} {hs : ClientCalls El} {h : Calls} {drawn : List (StoredMessage × Option Receipt)}
    (hd : Hands i hs h drawn)
    (hinc : ∀ key, ((deliveredTo i h).filter (·.place = key)).Pairwise (·.offset < ·.offset)) :
    (receiptsOf i hs).Pairwise fun r r' => r.place = r'.place → r.offset < r'.offset := by
  have hmessages : (deliveredTo i h).Pairwise fun m m' => m.place = m'.place → m.offset < m'.offset := by
    refine List.pairwise_iff_forall_sublist.2 fun {m m'} hsub hplace => ?_
    have hpair : [m, m'].Sublist ((deliveredTo i h).filter (·.place = m'.place)) := by
      have hfilter := hsub.filter (·.place = m'.place)
      simpa [hplace] using hfilter
    exact List.pairwise_iff_forall_sublist.1 (hinc m'.place) hpair
  rw [hd.delivered, List.pairwise_map] at hmessages
  rw [hd.received, List.pairwise_filterMap]
  refine hmessages.imp_of_mem fun {x x'} hx hx' hlt r hr r' hr' hplace => ?_
  obtain ⟨m, o⟩ := x
  obtain ⟨m', o'⟩ := x'
  obtain rfl : o = some r := hr
  obtain rfl : o' = some r' := hr'
  have hm := hd.shown m r hx
  have hm' := hd.shown m' r' hx'
  rw [hm.offset, hm'.offset]
  apply hlt
  rw [← hm.place, ← hm'.place, hplace]

/-- One call. -/
private theorem hands_call (i : Nat) {c : ClientCall El} {o : Outcome RmqError (Returned El)} {h : Calls}
    (hl : Leads c.script h (.done o)) : ∃ drawn, Hands i [(c, o)] h drawn := by
  rcases c.tells with ⟨j, r, rfl⟩ | ⟨op, answer, hc⟩
  · rcases leads_receive hl with ⟨k, rfl, ho⟩ | ⟨k, o', rfl, rfl⟩
    · refine ⟨[], hands_nil (deliveredTo_idle i j k) ?_⟩
      unfold receiptOf
      split
      · rename_i heq
        obtain ⟨-, rfl⟩ := Prod.mk.inj heq
        rename_i receipt
        cases receipt with
        | none => simp
        | some receipt => exact absurd rfl (ho receipt)
      · rfl
    · by_cases hji : j = i
      · subst hji
        obtain ⟨drawn, hd⟩ := hands_pass El j r o'
        refine ⟨drawn, ?_, hd.received, hd.shown, hd.refused⟩
        rw [deliveredTo_append, deliveredTo_idle, List.nil_append]
        exact hd.delivered
      · refine ⟨[], hands_nil ?_ ?_⟩
        · rw [deliveredTo_append, deliveredTo_idle]
          simp [deliveredTo, delivered, Op.actor, hji]
        · unfold receiptOf
          split
          · rename_i heq
            obtain ⟨hc, -⟩ := Prod.mk.inj heq
            obtain ⟨rfl, -⟩ := ClientCall.receive.inj hc
            rw [if_neg hji]
          · rfl
  · rw [hc.script] at hl
    rcases leads_one hl with ⟨-, hdone⟩ | ⟨o', rfl, -⟩
    · cases hdone
    · refine ⟨[], hands_nil (deliveredTo_of_ne (hc.poll i) _) ?_⟩
      unfold receiptOf
      split
      · rename_i heq
        exact absurd (Prod.mk.inj heq).1 (hc.receive _ _)
      · rfl

/-- The calls of a thread, with nothing taken off by the call in flight. -/
theorem hands_consists (i : Nat) {hs : ClientCalls El} {h : Calls} (hc : Consists ClientCall.script hs h) :
    ∃ drawn, Hands i hs h drawn := by
  induction hc with
  | nil => exact ⟨[], rfl, rfl, by simp, by simp⟩
  | snoc hs hl ih =>
    obtain ⟨drawn, hd⟩ := ih
    obtain ⟨drawn', hd'⟩ := hands_call i hl
    exact ⟨drawn ++ drawn', hd.append hd'⟩

/-- The records that the calls of a thread have reported are those that its operations have stored. -/
theorem records_consists {hs : ClientCalls El} {h : Calls} (hc : Consists ClientCall.script hs h) :
    hs.filterMap reportedRecord = h.filterMap sentRecord := by
  induction hc with
  | nil => rfl
  | @snoc hs h h' c o _ hl ih =>
    have hone : [(c, o)].filterMap reportedRecord = h'.filterMap sentRecord := by
      rcases c.tells with ⟨j, r, rfl⟩ | ⟨op, answer, hc⟩
      · have hnone : reportedRecord ((.receive j r, o) : ClientCall El × Outcome RmqError (Returned El)) = none := by
          rcases o with _ | _ | _ <;> rfl
        rcases leads_receive hl with ⟨k, rfl, -⟩ | ⟨k, o', rfl, -⟩
        · simp [hnone, filterMap_sentRecord_idle]
        · simp [hnone, filterMap_sentRecord_idle, sentRecord]
      · rw [hc.script] at hl
        rcases leads_one hl with ⟨-, hdone⟩ | ⟨o', rfl, hdone⟩
        · cases hdone
        · obtain rfl := Script.done.inj hdone
          simp [List.filterMap_cons, hc.reported]
    rw [List.filterMap_append, List.filterMap_append, ih, hone]

theorem settles_consists {hs : ClientCalls El} {h : Calls} (hc : Consists ClientCall.script hs h) {c : ClientCall El}
    {o : Outcome RmqError (Returned El)} (hmem : (c, o) ∈ hs) {call : ProduceCall} (hcall : c.produceCall? = some call) :
    c.Settles o := by
  obtain ⟨n, hn⟩ := List.mem_iff_getElem?.1 hmem
  obtain ⟨-, h₂, -, -, -, hl⟩ := hc.split hn
  rcases c.tells with ⟨j, r, rfl⟩ | ⟨op, answer, ht⟩
  · cases hcall
  · rw [ht.script] at hl
    rcases leads_one hl with ⟨-, hdone⟩ | ⟨o', -, hdone⟩
    · cases hdone
    · obtain rfl := Script.done.inj hdone
      exact ht.settles call hcall o'

theorem paused_consists {start : Finset (String × Int)} {hs : ClientCalls El} {h : Calls}
    (hc : Consists ClientCall.script hs h) : pausedAfterCalls start hs = pausedAfter start h := by
  induction hc with
  | nil => rfl
  | @snoc hs h h' c o _ hl ih =>
    have hone : ∀ start, pausedAfterCalls start [(c, o)] = pausedAfter start h' := by
      intro start
      rcases c.tells with ⟨j, r, rfl⟩ | ⟨op, answer, hc⟩
      · rcases leads_receive hl with ⟨k, rfl, -⟩ | ⟨k, o', rfl, -⟩
        · rw [pausedAfter_idle]
          rfl
        · rw [pausedAfter_append, pausedAfter_idle]
          rfl
      · rw [hc.script] at hl
        rcases leads_one hl with ⟨-, hdone⟩ | ⟨o', rfl, hdone⟩
        · cases hdone
        · obtain rfl := Script.done.inj hdone
          exact hc.paused start o'
    rw [pausedAfter_append, ← ih, ← hone]
    exact List.foldl_append

/-! ### The run -/

section

variable {π ι : Type} [DecidableEq ι] [Partitioner π] (ids : Nat → BaseConsumer)
  {p : ι → Op → Prop} {v : System ι (ClientCall El) (World π) RmqError (Returned El)}
  {w : System ι Op (World π) RmqError Reply}

/-- Threads that make the calls of an application do what threads do that make their operations. -/
theorem clients_exec (w₀ : World π) {sched : List (Choice ι (ClientCall El))}
    (hp : ∀ t c, .call t c ∈ sched → ∀ op, c.Makes op → p t op) :
    ∃ ops : List (Choice ι Op), (∀ t op, .call t op ∈ ops → p t op) ∧
      System.Issues (Op.body ids) ClientCall.script p (System.exec (ClientCall.body ids) (.init w₀) sched)
        (System.exec (Op.body ids) (.init w₀) ops) :=
  System.scripts_exec (System.issues_init w₀) sched fun t c hc => c.all_script.mono (hp t c hc)

variable {ids}

theorem hands_issues (i : Nat) (h : System.Issues (Op.body ids) ClientCall.script p v w) (t : ι) :
    ∃ drawn, Hands i (own t v.history) (own t w.history) drawn := by
  rcases hrun : v.running t with _ | ⟨c, x⟩
  · exact hands_consists i ((h.at_ t).idle hrun).2
  · obtain ⟨done, h', op, f, g, k, hown, hdone, hlead, -⟩ := (h.at_ t).busy c x hrun
    obtain ⟨drawn, hd⟩ := hands_consists i hdone
    refine ⟨drawn, ?_, hd.received, hd.shown, hd.refused⟩
    rw [hown, deliveredTo_append, (leads_busy hlead).1 i, List.append_nil, hd.delivered]

theorem settles_issues (h : System.Issues (Op.body ids) ClientCall.script p v w) {t : ι} {c : ClientCall El}
    {o : Outcome RmqError (Returned El)} (hmem : (t, c, o) ∈ v.history) {call : ProduceCall}
    (hcall : c.produceCall? = some call) : c.Settles o := by
  rcases hrun : v.running t with _ | ⟨c', x⟩
  · exact settles_consists ((h.at_ t).idle hrun).2 (System.mem_own.2 hmem) hcall
  · obtain ⟨done, h', op, f, g, k, -, hdone, -⟩ := (h.at_ t).busy c' x hrun
    exact settles_consists hdone (System.mem_own.2 hmem) hcall

theorem records_issues (h : System.Issues (Op.body ids) ClientCall.script p v w) :
    (v.history.filterMap fun e => reportedRecord e.2).Perm (w.history.filterMap fun e => sentRecord e.2) := by
  refine System.perm_of_own fun t => ?_
  rcases hrun : v.running t with _ | ⟨c, x⟩
  · exact records_consists ((h.at_ t).idle hrun).2
  · obtain ⟨done, h', op, f, g, k, hown, hdone, hlead, -⟩ := (h.at_ t).busy c x hrun
    rw [hown, List.filterMap_append, (leads_busy hlead).2, List.append_nil]
    exact records_consists hdone

end

end

end RMemQueue
