import RMemQueue.InOrder

/-!
# Each message to one member, once

The members of a group poll while their assignments stay as they are, from any positions and with any commits.  `Drawn`
ties the state of a member to what its polls have returned: a returned message lies below the stored position of its
partition, or it has been evicted.  A position is moved back only when it is out of range, and then everything below it
has been evicted; so that no message is returned to the member twice, and none to two members whose assignments have no
partition in common.
-/

namespace RMemQueue

open Conc

variable {π : Type}

/-- The messages that polls of consumer `i` have returned. -/
def deliveredTo (i : Nat) (h : Calls) : List StoredMessage :=
  delivered (h.filter fun e => e.1.actor = some i)

@[simp] theorem deliveredTo_append (i : Nat) (h h' : Calls) :
    deliveredTo i (h ++ h') = deliveredTo i h ++ deliveredTo i h' := by
  rw [deliveredTo, List.filter_append, delivered_append]
  rfl

theorem mem_deliveredTo {i : Nat} {h : Calls} {m : StoredMessage} :
    m ∈ deliveredTo i h ↔ (.consumer i .pollOnce, .ok (.message (some m))) ∈ h := by
  rw [deliveredTo, delivered, List.mem_filterMap]
  constructor
  · rintro ⟨⟨op, o⟩, hmem, hm⟩
    obtain ⟨he, hi⟩ := List.mem_filter.1 hmem
    split at hm
    · rename_i c m' heq
      obtain ⟨rfl, rfl⟩ := Prod.mk.inj heq
      subst hm
      obtain rfl : c = i := by simpa [Op.actor] using hi
      exact he
    · cases hm
  · intro he
    exact ⟨_, List.mem_filter.2 ⟨he, by simp [Op.actor]⟩, rfl⟩

/-- An operation that is not a poll of consumer `i` returns it nothing. -/
theorem deliveredTo_of_ne {i : Nat} {op : Op} (h : op ≠ .consumer i .pollOnce) (o : Outcome RmqError Reply) :
    deliveredTo i [(op, o)] = [] := by
  refine List.eq_nil_iff_forall_not_mem.2 fun m hm => ?_
  obtain ⟨rfl, -⟩ := Prod.mk.inj (List.mem_singleton.1 (mem_deliveredTo.1 hm))
  exact h rfl

/-- What ties consumer `i` to the calls that its thread has ended; its assignment is `l`. -/
structure Drawn (i : Nat) (l : TopicPartitionList) (s : Session π) (h : Calls) : Prop where
  assigned : s.state.assignedPartitions = l
  position : ∀ key v, s.state.position.lookup key = some v →
    (∃ n : Nat, v = n ∧ n ≤ (s.broker.logAt key).next) ∨ ∀ m ∈ deliveredTo i h, m.place ≠ key
  below : ∀ m ∈ deliveredTo i h, (∃ v, s.state.position.lookup m.place = some v ∧ m.offset < v) ∨
    m.offset < (s.broker.logAt m.place).dropped
  increasing : ∀ key, ((deliveredTo i h).filter (·.place = key)).Pairwise (·.offset < ·.offset)
  owned : ∀ m ∈ deliveredTo i h, m.place ∈ l.keys

variable {i : Nat} {l : TopicPartitionList} {s s' : Session π} {h : Calls}

/-- Steps that leave the assignment and the positions alone. -/
theorem Drawn.keep (hs : Drawn i l s h) (hl : s.broker.Later s'.broker)
    (ha : s'.state.assignedPartitions = s.state.assignedPartitions) (hp : s'.state.position = s.state.position) :
    Drawn i l s' h := by
  refine ⟨ha.trans hs.assigned, fun key v hv => ?_, fun m hm => ?_, hs.increasing, hs.owned⟩
  · refine (hs.position key v (hp ▸ hv)).imp_left ?_
    rintro ⟨n, hn, hle⟩
    exact ⟨n, hn, hle.trans (TrimmedLog.next_mono (hl.logAt key))⟩
  · rw [hp]
    have hd := TrimmedLog.dropped_mono (hl.logAt m.place)
    refine (hs.below m hm).imp_right fun hlt => ?_
    omega

/-- A call that returns no message to the consumer. -/
theorem Drawn.silent (hs : Drawn i l s h) {e : Op × Outcome RmqError Reply} (he : deliveredTo i [e] = []) :
    Drawn i l s (h ++ [e]) := by
  have hdel : deliveredTo i (h ++ [e]) = deliveredTo i h := by rw [deliveredTo_append, he, List.append_nil]
  obtain ⟨ha, hp, hb, hi, ho⟩ := hs
  rw [← hdel] at hp hb hi ho
  exact ⟨ha, hp, hb, hi, ho⟩

/-! ### What a poll stores -/

section

variable {b : Broker π} {key : String × Int} {groupId : Option String}

/-- The fetch of a poll begins above everything that the partition has returned. -/
private theorem Drawn.read (hs₀ : Drawn i l ⟨b, s.state⟩ h) {m : StoredMessage}
    (hread : Broker.Read b s.broker key (s.state.position.lookup key) groupId (.ok (some m))) :
    ∀ m' ∈ deliveredTo i h, m'.place = key → m'.offset < m.offset := by
  intro m' hm' hk
  obtain ⟨n, hn, hd, -, hpos, -⟩ := hread
  rcases hs₀.below m' hm' with ⟨o, ho, hlt⟩ | hlt
  · rw [hk] at ho
    have := hpos o ho
    omega
  · rw [hk] at hlt
    change m'.offset < (b.logAt key).dropped at hlt
    omega

/-- What was returned from a partition whose position is out of range has been evicted. -/
private theorem Drawn.out_of_range (hs₀ : Drawn i l ⟨b, s.state⟩ h) {t : String} {p v : Int}
    (hread : Broker.Read b s.broker key (s.state.position.lookup key) groupId (.err (.offsetOutOfRange t p v)))
    {m : StoredMessage} (hm : m ∈ deliveredTo i h) (hk : m.place = key) : m.offset < (b.logAt key).dropped := by
  obtain ⟨-, hout⟩ := hread
  rcases hs₀.below m hm with ⟨o, ho, hlt⟩ | hlt
  · rw [hk] at ho
    rcases hs₀.position key o ho with ⟨n, rfl, hn⟩ | hno
    · change n ≤ (b.logAt key).next at hn
      have := hout _ ho
      omega
    · exact absurd hk (hno m hm)
  · rw [hk] at hlt
    exact hlt

/-- A poll resets a position. -/
private theorem Drawn.reset (hs₀ : Drawn i l ⟨b, s.state⟩ h) (hs : Drawn i l s h) (hl : b.Later s.broker)
    {t : String} {p v : Int}
    (hread : Broker.Read b s.broker key (s.state.position.lookup key) groupId (.err (.offsetOutOfRange t p v))) :
    Drawn i l ⟨s.broker, s.state.setPosition key v⟩ h := by
  obtain ⟨n, hn, hle⟩ := hread.1
  refine ⟨hs.assigned, fun key' v' hv => ?_, fun m hm => ?_, hs.increasing, hs.owned⟩
  · by_cases hk : key' = key
    · subst hk
      rw [ConsumerState.lookup_setPosition] at hv
      obtain rfl := Option.some.inj hv
      exact Or.inl ⟨n, hn, hle.trans (TrimmedLog.dropped_le_next _)⟩
    · rw [ConsumerState.lookup_setPosition_ne _ _ hk] at hv
      exact hs.position key' v' hv
  · by_cases hk : m.place = key
    -- the position was outside the log, so that everything returned has been evicted
    · have hlt := hs₀.out_of_range hread hm hk
      have hd := TrimmedLog.dropped_mono (hl.logAt key)
      rw [hk]
      change _ ∨ m.offset < (s.broker.logAt key).dropped
      omega
    · rw [ConsumerState.lookup_setPosition_ne _ _ hk]
      exact hs.below m hm

/-- A poll returns the message that its fetch has found. -/
private theorem Drawn.deliver (hs₀ : Drawn i l ⟨b, s.state⟩ h) (hs : Drawn i l s h) (hl : b.Later s.broker)
    {m : StoredMessage} (hread : Broker.Read b s.broker key (s.state.position.lookup key) groupId (.ok (some m)))
    (hkey : key ∈ s.state.assignedPartitions.keys) (idx : Nat) :
    Drawn i l ⟨s.broker, s.state.delivered key m.offset idx⟩
      (h ++ [(.consumer i .pollOnce, .ok (.message (some m)))]) := by
  have habove := hs₀.read hread
  obtain ⟨n, hn, -, hm, -, -⟩ := hread
  have hplace : m.place = key := by
    obtain ⟨-, ht, hp⟩ := InMemoryBackend.stamped hm
    exact Prod.ext ht hp
  have hmem : ∀ m', m' ∈ deliveredTo i (h ++ [(.consumer i .pollOnce, .ok (.message (some m)))]) ↔
      m' ∈ deliveredTo i h ∨ m' = m := by
    intro m'
    simp [mem_deliveredTo]
  refine ⟨hs.assigned, fun key' v hv => ?_, fun m' hm' => ?_, fun key' => ?_, fun m' hm' => ?_⟩
  · by_cases hk : key' = key
    · subst hk
      rw [ConsumerState.lookup_delivered] at hv
      obtain rfl := Option.some.inj hv
      obtain ⟨hlt, -⟩ := List.getElem?_eq_some_iff.1 hm
      exact Or.inl ⟨n + 1, by omega, hlt.trans_le (TrimmedLog.next_mono (hl.logAt key'))⟩
    · rw [ConsumerState.lookup_delivered_ne _ _ _ hk] at hv
      refine (hs.position key' v hv).imp_right fun hno m' hm' => ?_
      rcases (hmem m').1 hm' with hm' | rfl
      · exact hno m' hm'
      · rw [hplace]
        exact Ne.symm hk
  · by_cases hk : m'.place = key
    · rw [hk, ConsumerState.lookup_delivered]
      refine Or.inl ⟨m.offset + 1, rfl, ?_⟩
      rcases (hmem m').1 hm' with hm' | rfl
      · have := habove m' hm' hk
        omega
      · omega
    · rw [ConsumerState.lookup_delivered_ne _ _ _ hk]
      rcases (hmem m').1 hm' with hm' | rfl
      · exact hs.below m' hm'
      · exact absurd hplace hk
  · have hlast : deliveredTo i [((.consumer i .pollOnce, .ok (.message (some m))) : Op × Outcome RmqError Reply)] =
        [m] := by simp [deliveredTo, delivered, Op.actor]
    rw [deliveredTo_append, hlast]
    exact increasing_concat (hs.increasing key') fun m' hm' hk => habove m' hm' (hk.trans hplace)
  · rcases (hmem m').1 hm' with hm' | rfl
    · exact hs.owned m' hm'
    · rw [hplace, ← hs.assigned]
      exact hkey

/-- A poll that returns no message adds nothing to what has been returned. -/
private theorem deliveredTo_of_none {o : Outcome RmqError (Option StoredMessage)} (ho : ∀ m, o ≠ .ok (some m)) :
    deliveredTo i [((.consumer i .pollOnce, o.map .message) : Op × Outcome RmqError Reply)] = [] := by
  refine List.eq_nil_iff_forall_not_mem.2 fun m hm => ?_
  have hm := List.mem_singleton.1 (mem_deliveredTo.1 hm)
  rcases o with r | _ | _
  · obtain rfl : some m = r := by simpa [Outcome.map] using hm
    exact ho m rfl
  · cases hm
  · cases hm

/-- A poll keeps the invariant. -/
theorem drawn_pollInvariant (i : Nat) (l : TopicPartitionList) (groupId : Option String) :
    PollInvariant (Drawn (π := π) i l) i groupId where
  rely hs hl he := hs.keep hl (by rw [he]) (by rw [he])
  silent hs ho := hs.silent (deliveredTo_of_none ho)
  reset hs₀ hs hl hread := hs₀.reset hs hl hread
  deliver hs₀ hs hl hread hkey _ idx := hs₀.deliver hs hl hread hkey idx

end

/-! ### The run -/

/-- The operation leaves the assignment and the positions of consumer `i` alone. -/
def Op.LeavesAlone (i : Nat) (op : Op) : Prop :=
  ∀ request, op = .consumer i request → ¬request.Assigns ∧ ∀ key, ¬request.Moves key

private theorem Op.LeavesAlone.keeps {request : Request} (h : (Op.consumer i request).LeavesAlone i)
    (hne : request ≠ .pollOnce) (l : TopicPartitionList) (c : BaseConsumer) :
    request.Keeps (Drawn (π := π) i l) i c := by
  obtain ⟨hassign, hmove⟩ := h request rfl
  have hbody : (request.body c : ConsumerM π Reply).Always (Session.Step fun s s' =>
      s'.assignedPartitions = s.assignedPartitions ∧ s'.position = s.position) :=
    request.always_body c
      { refl := fun _ => ⟨rfl, rfl⟩
        setPosition := fun key hk => absurd hk (hmove key)
        delivered := fun hp => absurd hp hne
        pause := fun _ _ => ⟨rfl, rfl⟩
        resume := fun _ _ => ⟨rfl, rfl⟩
        subscribe := fun ha => absurd ha hassign
        assign := fun ha => absurd ha hassign
        cleared := fun ha => absurd ha hassign }
  intro s h hs
  refine (hbody.after ⟨.refl _, rfl, rfl⟩).mono (fun _ _ hs hI => hI.keep hs.1 hs.2.1 hs.2.2) fun _ o _ hs hI => ?_
  exact (hI.keep hs.1 hs.2.1 hs.2.2).silent (deliveredTo_of_ne (by simpa using hne) o)

variable [Partitioner π] (ids : Nat → BaseConsumer) {ι : Type} [DecidableEq ι]

/-- One thread uses consumer `i`, and changes neither its assignment nor, apart from polls, its positions. -/
theorem drawn_exec (t : ι) {w₀ : World π} {sched : List (Choice ι Op)}
    (ht : ∀ op, .call t op ∈ sched → op = .consumer i .pollOnce ∨ op.LeavesAlone i)
    (hother : ∀ j op, .call j op ∈ sched → j ≠ t → op.actor ≠ some i) :
    Drawn i (w₀.consumers i).assignedPartitions
      ((World.sessionLens i).get (System.exec (Op.body ids) (.init w₀) sched).shared)
      (own t (System.exec (Op.body ids) (.init w₀) sched).history) := by
  refine (drawn_pollInvariant i _ _).exec t (fun op => op = .consumer i .pollOnce ∨ op.LeavesAlone i) ?_ ?_ ?_ ht hother
  · intro r hop hne
    refine Op.LeavesAlone.keeps (hop.resolve_left fun h => hne ?_) hne _ _
    cases h
    rfl
  · intro op hop hactor s h o hs
    refine hs.silent (deliveredTo_of_ne ?_ o)
    rintro rfl
    exact hactor rfl
  · have hnil : deliveredTo i [] = [] := rfl
    exact ⟨rfl, fun _ _ _ => Or.inr (by simp [hnil]), by simp [hnil], by simp [hnil], by simp [hnil]⟩

end RMemQueue
