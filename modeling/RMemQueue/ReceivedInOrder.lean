import RMemQueue.Receiving

/-!
# Receiving in order

A consumer without a group that one thread pauses, resumes and receives from, by any of the calls that wait: a blocking
poll, a poll of a typed consumer, or a future that is dropped at any await.  What the calls return is in order and not
paused, and nothing is left out but what has been evicted or what the typed consumer has refused.
-/

namespace RMemQueue

open Conc
open Script (Consists)

section

variable {τ : Type} {El : τ → Type}

/-- The call receives from consumer `i`, pauses it or resumes it. -/
def ClientCall.Follows (i : Nat) (c : ClientCall El) : Prop :=
  (∃ r, c = .receive i r) ∨ (∃ l hr, c = .request i (.pause l) hr) ∨ ∃ l hr, c = .request i (.resume l) hr

variable {π : Type}

/-- The message at the offset has been returned, refused or evicted. -/
def Broker.Accounted (b : Broker π) (i : Nat) (h : ClientCalls El) (key : String × Int) (o : Nat) : Prop :=
  (∃ receipt ∈ receiptsOf i h, receipt.place = key ∧ receipt.offset = o) ∨
  (∃ m, (b.logAt key).history[o]? = some m ∧ m.hasTypedPayload = false ∧ ∃ call, refusal i call ∈ h) ∨
  o < (b.logAt key).dropped

variable {i : Nat}

private theorem delivered_eq_deliveredTo {h : Calls} (hh : ∀ e ∈ h, e.1.actor = some i) :
    delivered h = deliveredTo i h := by
  rw [deliveredTo, List.filter_eq_self.2]
  intro e he
  exact decide_eq_true (hh e he)

/-- What the operations have settled, the calls account for. -/
private theorem accounted_of_settled {b : Broker π} {hs : ClientCalls El} {h : Calls}
    {drawn : List (StoredMessage × Option Receipt)} (hd : Hands i hs h drawn) (hh : delivered h = deliveredTo i h)
    (hstored : ∀ m ∈ delivered h, ∃ n : Nat, m.offset = n ∧ (b.logAt m.place).history[n]? = some m) {key : String × Int}
    {o : Nat} (hset : b.Settled h key o) : b.Accounted i hs key o := by
  rcases hset with ⟨m, hm, rfl, ho⟩ | hdropped
  · obtain ⟨n, hn, hget⟩ := hstored m hm
    obtain rfl : n = o := by omega
    rw [hh, hd.delivered] at hm
    obtain ⟨⟨m', x⟩, hx, rfl⟩ := List.mem_map.1 hm
    cases x with
    | some receipt =>
      have hshows := hd.shown m' receipt hx
      refine Or.inl ⟨receipt, ?_, hshows.place, hshows.offset.trans hn⟩
      rw [hd.received]
      exact List.mem_filterMap.2 ⟨_, hx, rfl⟩
    | none =>
      obtain ⟨hraw, hrefused⟩ := hd.refused m' hx
      exact Or.inr (Or.inl ⟨m', hget, hraw, hrefused⟩)
  · exact Or.inr (Or.inr hdropped)

/-- A receipt comes from the last pass of its call. -/
private theorem polled_eq_receipt {r : Receive} {o : Outcome RmqError Reply} {receipt : Receipt}
    (h : ((polled r.ready o).map .received : Outcome RmqError (Returned El)) = .ok (.received (some receipt))) :
    ∃ m, o = .ok (.message (some m)) ∧ receipt.Shows m := by
  rcases o with (_ | _ | m | _ | _ | _) | _ | _
  · cases h
  · cases h
  · cases m with
    | none => cases h
    | some m =>
      refine ⟨m, rfl, ?_⟩
      rcases r.ready_cases m with ⟨receipt', hready, hshows⟩ | ⟨-, -, hready⟩
      · simp only [polled, hready, Outcome.map, Outcome.ok.injEq, Returned.received.injEq, Option.some.injEq] at h
        exact h ▸ hshows
      · simp [polled, hready, Outcome.map] at h
  · cases h
  · cases h
  · cases h
  · cases h
  · cases h

variable [∀ a, ToBytes (El a)]

private theorem ClientCall.Follows.makes {c : ClientCall El} (hc : c.Follows i) {op : Op} (hop : c.Makes op) :
    ∃ r : Request, op = .consumer i r ∧ r.Polling := by
  rcases hc with ⟨r, rfl⟩ | ⟨l, hr, rfl⟩ | ⟨l, hr, rfl⟩
  · exact ⟨.pollOnce, hop, trivial⟩
  · exact ⟨.pause l, hop, trivial⟩
  · exact ⟨.resume l, hop, trivial⟩

/-- Nothing is returned from a paused partition. -/
private theorem unpaused_consists {start : Finset (String × Int)} {hs : ClientCalls El} {h : Calls}
    (hc : Consists ClientCall.script hs h)
    (hunpaused : ∀ k e, h[k]? = some e → ∀ m ∈ delivered [e], m.place ∉ pausedAfter start (h.take k))
    {n : Nat} {e : ClientCall El × Outcome RmqError (Returned El)} (hn : hs[n]? = some e) {receipt : Receipt}
    (hr : receiptOf i e = some receipt) : receipt.place ∉ pausedAfterCalls start (hs.take n) := by
  obtain ⟨c, o⟩ := e
  obtain ⟨h₁, h₂, h₃, rfl, hpast, hlead⟩ := hc.split hn
  unfold receiptOf at hr
  split at hr
  · rename_i j r x heq
    obtain ⟨rfl, rfl⟩ := Prod.mk.inj heq
    split at hr
    · obtain rfl : x = some receipt := hr
      rcases leads_receive hlead with ⟨k, -, hno⟩ | ⟨k, o', rfl, ho'⟩
      · exact absurd rfl (hno receipt)
      · obtain ⟨m, rfl, hshows⟩ := polled_eq_receipt ho'.symm
        -- the place of the pass among the operations of the thread
        have hget : ∀ e, (h₁ ++ (List.replicate k (idlePass j) ++ [e] ++ h₃))[h₁.length + k]? = some e := by
          intro e
          rw [List.getElem?_append_right (by omega), Nat.add_sub_cancel_left, List.append_assoc,
            List.getElem?_append_right (by simp)]
          simp
        have htake : ∀ e, (h₁ ++ (List.replicate k (idlePass j) ++ [e] ++ h₃)).take (h₁.length + k) =
            h₁ ++ List.replicate k (idlePass j) := by
          intro e
          rw [List.take_append, List.take_of_length_le (by omega), Nat.add_sub_cancel_left, List.append_assoc,
            List.take_left' (by simp)]
        have hplace := hunpaused _ _ (hget _) m (by simp [delivered])
        rwa [htake, pausedAfter_append, pausedAfter_idle, ← paused_consists hpast, ← hshows.place] at hplace
    · cases hr
  · cases hr

variable {ι : Type} [DecidableEq ι] [Partitioner π] {ids : Nat → BaseConsumer}

end

/-- A poll that does not wait. -/
def pollNow : PollCall := ⟨fun _ => 0, 0, 0, 0, monotone_const, le_refl 0⟩

def sendRaw : ClientCall fun _ : Unit => Bytes := .send () () (BaseRecord.toTopic "t") ⟨7, 0, fun _ => 0⟩

/-- Two messages with raw bytes, of which the first one meets a typed consumer. -/
def receivesTwice : List (Choice Nat (ClientCall fun _ : Unit => Bytes)) :=
  [.call 1 sendRaw] ++ List.replicate 20 (.step 1) ++
    [.call 0 (.receive 0 (.typedPoll pollNow)), .call 1 sendRaw] ++ (List.replicate 20 [.step 0, .step 1]).flatten ++
    [.call 0 (.receive 0 (.recv []))] ++ List.replicate 20 (.step 0)

end RMemQueue
