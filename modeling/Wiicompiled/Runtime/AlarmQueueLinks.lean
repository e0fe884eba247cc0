import Wiicompiled.Runtime.AlarmQueue

/-!
# The links of the alarm queue

The two words of the queue are the sentinel of the list.  Setting an alarm inserts it
behind the alarms that do not fire later in the order of signed numbers, and processing the
queue removes its head.
-/

namespace Wiicompiled.Runtime.AlarmQueue

open SentinelList

variable {m m' : AlarmMemory} {alarm prev cur a b : Address} {l front back : List Address}

/-! ## The list -/

def AlarmMemory.links (m : AlarmMemory) : Links Address where
  succ a := if a = 0#32 then m.head else (m.alarms a).next
  pred a := if a = 0#32 then m.tail else (m.alarms a).prev

def IsAlarmList (m : AlarmMemory) (l : List Address) : Prop :=
  IsRing m.links 0#32 l

theorem IsAlarmList.ne_null (h : IsAlarmList m l) (ha : a ∈ l) : a ≠ 0#32 := by
  rintro rfl
  exact h.notMem ha

theorem IsAlarmList.head_eq (h : IsAlarmList m l) : m.head = headOr 0#32 l := by
  simpa [AlarmMemory.links] using h.succ_sentinel

/-- What an alarm is apart from its links. -/
def Alarm.data (a : Alarm) : Address × BitVec 64 × BitVec 64 :=
  (a.handler, a.fireTime, a.period)

@[simp]
theorem alarms_write (m : AlarmMemory) (alarm : Address) (a : Alarm) (b : Address) :
    (m.write alarm a).alarms b = if b = alarm then a else m.alarms b := by
  simp [AlarmMemory.write, Function.update_apply]

@[simp]
theorem head_write (m : AlarmMemory) (alarm : Address) (a : Alarm) :
    (m.write alarm a).head = m.head := rfl

@[simp]
theorem tail_write (m : AlarmMemory) (alarm : Address) (a : Alarm) :
    (m.write alarm a).tail = m.tail := rfl

@[simp]
theorem alarms_setNext (m : AlarmMemory) (alarm next b : Address) :
    (m.setNext alarm next).alarms b =
      if b = alarm then { m.alarms b with next := next } else m.alarms b := by
  rw [AlarmMemory.setNext, alarms_write]
  split
  · rename_i h
    rw [h]
  · rfl

@[simp]
theorem alarms_setPrev (m : AlarmMemory) (alarm prev b : Address) :
    (m.setPrev alarm prev).alarms b =
      if b = alarm then { m.alarms b with prev := prev } else m.alarms b := by
  rw [AlarmMemory.setPrev, alarms_write]
  split
  · rename_i h
    rw [h]
  · rfl

@[simp]
theorem head_setNext (m : AlarmMemory) (alarm next : Address) :
    (m.setNext alarm next).head = m.head := rfl

@[simp]
theorem tail_setNext (m : AlarmMemory) (alarm next : Address) :
    (m.setNext alarm next).tail = m.tail := rfl

@[simp]
theorem head_setPrev (m : AlarmMemory) (alarm prev : Address) :
    (m.setPrev alarm prev).head = m.head := rfl

@[simp]
theorem tail_setPrev (m : AlarmMemory) (alarm prev : Address) :
    (m.setPrev alarm prev).tail = m.tail := rfl

theorem sanitizeAlarmQueue_of_isAlarmList (h : IsAlarmList m l) : sanitizeAlarmQueue m = m := by
  rw [sanitizeAlarmQueue]
  split
  · rfl
  · rename_i hhead
    rw [if_neg]
    rintro ⟨hnext, -, -⟩
    rcases l with - | ⟨x, rest⟩
    · exact hhead h.head_eq
    · have hx : m.head = x := h.head_eq
      have hsucc : m.links.succ x = headOr 0#32 rest :=
        (@IsRing.linked_at _ m.links 0#32 [x] rest h).1
      rw [← hx] at hsucc
      have hsucc : m.head = headOr 0#32 rest := by
        simpa [AlarmMemory.links, hhead, hnext] using hsucc
      rcases rest with - | ⟨y, rest⟩
      · exact hhead hsucc
      · have hy : x = y := hx.symm.trans hsucc
        have hnodup := h.nodup_list
        rw [hy] at hnodup
        exact (List.nodup_cons.mp hnodup).1 List.mem_cons_self

theorem length_le_searchFuel (h : l.Nodup) : l.length ≤ searchFuel := by
  have hmap : (l.map BitVec.toFin).Nodup :=
    h.map_on fun x _ y _ hxy => BitVec.toFin_inj.mp hxy
  have hle := hmap.length_le_card
  rwa [List.length_map, Fintype.card_fin] at hle

/-! ## The position of a new alarm -/

theorem findPosition_spec
    (h : IsAlarmList m (front ++ back)) (fireTime : BitVec 64) {fuel : ℕ}
    (hfuel : back.length ≤ fuel) :
    ∃ kept rest, back = kept ++ rest ∧
      findPosition m fireTime fuel (lastOr 0#32 front) (headOr 0#32 back) =
        (lastOr 0#32 (front ++ kept), headOr 0#32 rest) ∧
      (∀ a ∈ kept, fireTime.slt (m.alarms a).fireTime = false) ∧
      ∀ b ∈ rest.head?, fireTime.slt (m.alarms b).fireTime = true := by
  induction back generalizing front fuel with
  | nil =>
      refine ⟨[], [], rfl, ?_, by simp, by simp⟩
      rw [List.append_nil]
      rcases fuel with - | fuel
      · rfl
      · exact if_pos rfl
  | cons x rest ih =>
      obtain ⟨fuel, rfl⟩ : ∃ k, fuel = k + 1 := ⟨fuel - 1, by
        rw [List.length_cons] at hfuel
        omega⟩
      have hx : x ≠ 0#32 := h.ne_null (List.mem_append_right _ List.mem_cons_self)
      by_cases hlater : fireTime.slt (m.alarms x).fireTime = true
      · refine ⟨[], x :: rest, rfl, ?_, by simp, by simpa using hlater⟩
        rw [List.append_nil, findPosition]
        exact (if_neg hx).trans (if_pos hlater)
      · have hsplit : IsAlarmList m ((front ++ [x]) ++ rest) := by
          rwa [List.append_assoc, List.singleton_append]
        have hlast : lastOr 0#32 (front ++ [x]) = x := by simp [lastOr]
        have hnext : (m.alarms x).next = headOr 0#32 rest := by
          have hsucc := hsplit.linked_at.1
          rw [hlast, AlarmMemory.links] at hsucc
          simpa [hx] using hsucc
        obtain ⟨kept, later, hrest, hfind, hkept, hlaterHead⟩ :=
          ih hsplit (Nat.le_of_succ_le_succ hfuel)
        refine ⟨x :: kept, later, by rw [hrest, List.cons_append], ?_, ?_, hlaterHead⟩
        · rw [findPosition]
          refine ((if_neg hx).trans (if_neg hlater)).trans ?_
          rw [hlast] at hfind
          rw [show headOr 0#32 (x :: rest) = x from rfl, hnext, hfind, List.append_assoc,
            List.singleton_append]
        · intro a ha
          rcases List.mem_cons.mp ha with rfl | ha
          · simpa using hlater
          · exact hkept a ha

/-! ## Insertion -/

/-- The stores that put an alarm between `prev` and `cur`, where the null address stands for
the words of the queue. -/
def linkBetween (m : AlarmMemory) (prev alarm cur : Address) : AlarmMemory :=
  let m := (m.setPrev alarm prev).setNext alarm cur
  let m := if prev = 0#32 then { m with head := alarm } else m.setNext prev alarm
  if cur = 0#32 then { m with tail := alarm } else m.setPrev cur alarm

theorem data_linkBetween (m : AlarmMemory) (prev alarm cur a : Address) :
    ((linkBetween m prev alarm cur).alarms a).data = (m.alarms a).data := by
  rw [linkBetween]
  by_cases hprev : prev = 0#32 <;> by_cases hcur : cur = 0#32 <;>
    simp only [hprev, hcur, if_true, if_false, alarms_setNext, alarms_setPrev] <;>
    split_ifs <;> rfl

theorem links_linkBetween
    (hne : alarm ≠ 0#32) (hprev : prev ≠ alarm) (hcur : cur ≠ alarm) (a : Address) :
    (linkBetween m prev alarm cur).links.succ a =
        (if a = prev then alarm else if a = alarm then cur else m.links.succ a) ∧
      (linkBetween m prev alarm cur).links.pred a =
        if a = cur then alarm else if a = alarm then prev else m.links.pred a := by
  by_cases hp : prev = 0#32 <;> by_cases hc : cur = 0#32 <;> by_cases ha : a = 0#32 <;>
    simp only [AlarmMemory.links, linkBetween, hp, hc, ha, if_true, if_false, alarms_setNext,
      alarms_setPrev, head_setNext, head_setPrev, tail_setNext, tail_setPrev] <;>
    grind

theorem isAlarmList_linkBetween
    (h : IsAlarmList m (front ++ back)) (hne : alarm ≠ 0#32) (hfree : alarm ∉ front ++ back) :
    IsAlarmList (linkBetween m (lastOr 0#32 front) alarm (headOr 0#32 back))
      (front ++ alarm :: back) := by
  have hnull : alarm ∉ 0#32 :: (front ++ back) := by
    rw [List.mem_cons, not_or]
    exact ⟨hne, hfree⟩
  have hmemNe : ∀ x ∈ 0#32 :: (front ++ back), x ≠ alarm := by
    rintro x hx rfl
    exact hnull hx
  have hprevNe : lastOr 0#32 front ≠ alarm := by
    refine hmemNe _ ?_
    rw [← List.cons_append]
    exact List.mem_append_left _ (lastOr_mem 0#32 front)
  have hcurNe : headOr 0#32 back ≠ alarm := by
    refine hmemNe _ ?_
    have hmem := headOr_mem 0#32 back
    simp only [List.mem_append, List.mem_cons] at hmem ⊢
    tauto
  have hlinks := @links_linkBetween m alarm _ _ hne hprevNe hcurNe
  have hsucc := fun a => (hlinks a).1
  have hpred := fun a => (hlinks a).2
  refine h.insert hnull ?_ ?_ ⟨?_, ?_⟩ ⟨?_, ?_⟩
  · intro x hx hlast
    rw [hsucc, if_neg hlast, if_neg (hmemNe x hx)]
  · intro y hy hhead
    rw [hpred, if_neg hhead, if_neg (hmemNe y hy)]
  · rw [hsucc, if_pos rfl]
  · rw [hpred, if_neg (Ne.symm hcurNe), if_pos rfl]
  · rw [hsucc, if_neg (Ne.symm hprevNe), if_pos rfl]
  · rw [hpred, if_pos rfl]

theorem setPrev_of_eq (h : (m.alarms alarm).prev = prev) : m.setPrev alarm prev = m := by
  subst h
  simp [AlarmMemory.setPrev, AlarmMemory.write]

theorem setNext_of_eq (h : (m.alarms alarm).next = cur) : m.setNext alarm cur = m := by
  subst h
  simp [AlarmMemory.setNext, AlarmMemory.write]

theorem insertByFireTime_eq
    (hprev : (m.alarms alarm).prev = 0#32)
    (hnext : (m.alarms alarm).next = 0#32) {fireTime : BitVec 64}
    (hfind : findPosition m fireTime searchFuel 0#32 m.head = (prev, cur))
    (hfirst : prev = 0#32 → cur = m.head) (hempty : m.head = 0#32 → prev = 0#32) :
    insertByFireTime m alarm fireTime = linkBetween m prev alarm cur := by
  by_cases hhead : m.head = 0#32
  · have hp := hempty hhead
    have hc := (hfirst hp).trans hhead
    simp only [insertByFireTime, hhead, if_true, linkBetween, hp, hc, setPrev_of_eq hprev,
      setNext_of_eq hnext]
  · rw [insertByFireTime, if_neg hhead, hfind]
    by_cases hp : prev = 0#32
    · have hc := hfirst hp
      rw [linkBetween, hp, hc, setPrev_of_eq hprev, if_pos rfl]
      exact (if_pos rfl).trans (if_neg hhead).symm
    · rw [linkBetween, if_neg hp]
      exact if_neg hp

theorem osSetAlarm_spec
    (h : IsAlarmList m l) (isLikelyCodeAddress : Address → Bool) (now : BitVec 64)
    {r : SetAlarmRegisters} (hne : r.gpr3 ≠ 0#32) (hfree : r.gpr3 ∉ l) :
    ∃ front back, l = front ++ back ∧
      IsAlarmList (osSetAlarm isLikelyCodeAddress now r m) (front ++ r.gpr3 :: back) ∧
      ((osSetAlarm isLikelyCodeAddress now r m).alarms r.gpr3).data =
        ((r.arguments isLikelyCodeAddress).2, now + (r.arguments isLikelyCodeAddress).1,
          0#64) ∧
      (∀ a, a ≠ r.gpr3 →
        ((osSetAlarm isLikelyCodeAddress now r m).alarms a).data = (m.alarms a).data) ∧
      (∀ a ∈ front,
        (now + (r.arguments isLikelyCodeAddress).1).slt (m.alarms a).fireTime = false) ∧
      ∀ b ∈ back.head?,
        (now + (r.arguments isLikelyCodeAddress).1).slt (m.alarms b).fireTime = true := by
  obtain ⟨fireTime, hfireTime⟩ :
    ∃ fireTime, fireTime = now + (r.arguments isLikelyCodeAddress).1 := ⟨_, rfl⟩
  obtain ⟨written, hwritten⟩ : ∃ written, written = m.write r.gpr3
      { handler := (r.arguments isLikelyCodeAddress).2, fireTime, prev := 0#32,
        next := 0#32, period := 0#64 } := ⟨_, rfl⟩
  have hset : osSetAlarm isLikelyCodeAddress now r m =
      insertByFireTime written r.gpr3 fireTime := by
    simp only [osSetAlarm, if_neg hne, sanitizeAlarmQueue_of_isAlarmList h, hwritten,
      hfireTime]
  have hother : ∀ a, a ≠ r.gpr3 → written.alarms a = m.alarms a := by
    intro a ha
    rw [hwritten, alarms_write, if_neg ha]
  have hring : IsAlarmList written l := by
    refine IsRing.congr h ?_ ?_ <;>
    · intro a ha
      simp only [AlarmMemory.links]
      rcases List.mem_cons.mp ha with rfl | ha
      · simp [hwritten]
      · rw [hother a (by rintro rfl; exact hfree ha)]
        simp [hwritten]
  have hlength := length_le_searchFuel hring.nodup_list
  obtain ⟨front, back, hl, hfind, hfront, hback⟩ :=
    @findPosition_spec written [] l hring fireTime searchFuel hlength
  rw [List.nil_append, show lastOr 0#32 ([] : List Address) = 0#32 from rfl,
    ← hring.head_eq] at hfind
  have hnull : 0#32 ∉ l := hring.notMem
  have hlast : lastOr 0#32 front = 0#32 → front = [] := by
    intro hlast
    by_contra hne
    rw [lastOr, List.getLastD_eq_getLast?, List.getLast?_eq_some_getLast hne,
      Option.getD_some] at hlast
    have hmem := List.getLast_mem hne
    rw [hlast] at hmem
    exact hnull (by rw [hl]; exact List.mem_append_left _ hmem)
  have heq : insertByFireTime written r.gpr3 fireTime =
      linkBetween written (lastOr 0#32 front) r.gpr3 (headOr 0#32 back) := by
    refine insertByFireTime_eq (by simp [hwritten]) (by simp [hwritten]) hfind ?_ ?_
    · intro hp
      rw [hring.head_eq, hl, hlast hp, List.nil_append]
    · intro hhead
      rw [hring.head_eq] at hhead
      rcases l with - | ⟨x, rest⟩
      · rw [(List.append_eq_nil_iff.mp hl.symm).1]
        rfl
      · rw [show headOr 0#32 (x :: rest) = x from rfl] at hhead
        rw [hhead] at hnull
        exact absurd List.mem_cons_self hnull
  refine ⟨front, back, hl, ?_, ?_, ?_, ?_, ?_⟩
  · rw [hset, heq]
    rw [hl] at hring hfree
    exact isAlarmList_linkBetween hring hne hfree
  · rw [hset, heq, data_linkBetween, hwritten, alarms_write, if_pos rfl, ← hfireTime]
    rfl
  · intro a ha
    rw [hset, heq, data_linkBetween, hother a ha]
  · intro a ha
    have hmem : a ∈ l := by rw [hl]; exact List.mem_append_left _ ha
    rw [← hfireTime, ← hother a (by rintro rfl; exact hfree hmem)]
    exact hfront a ha
  · intro b hb
    have hmem : b ∈ l := by
      rw [hl]
      exact List.mem_append_right _ (List.mem_of_mem_head? hb)
    rw [← hfireTime, ← hother b (by rintro rfl; exact hfree hmem)]
    exact hback b hb

/-! ## Removal of the head -/

theorem popAlarm_spec (h : IsAlarmList m (a :: l)) :
    IsAlarmList (popAlarm m) l ∧ m.head = a ∧
      ((popAlarm m).alarms a).handler = 0#32 ∧
      ∀ b, b ≠ a → ((popAlarm m).alarms b).data = (m.alarms b).data := by
  have hhead : m.head = a := h.head_eq
  have hne : a ≠ 0#32 := h.ne_null List.mem_cons_self
  have hnext : (m.alarms a).next = headOr 0#32 l := by
    have hsucc : m.links.succ a = headOr 0#32 l :=
      (@IsRing.linked_at _ m.links 0#32 [a] l h).1
    simpa [AlarmMemory.links, hne] using hsucc
  have hnotMem : a ∉ l := (List.nodup_cons.mp h.nodup_list).1
  have hcurNe : headOr 0#32 l ≠ a := by
    rintro heq
    have hmem := headOr_mem 0#32 l
    rw [heq, List.mem_append, List.mem_singleton] at hmem
    rcases hmem with hmem | hmem
    · exact hnotMem hmem
    · exact hne hmem
  have hsucc : ∀ x, x ≠ a → (popAlarm m).links.succ x =
      if x = 0#32 then headOr 0#32 l else m.links.succ x := by
    intro x hx
    by_cases hcur : headOr 0#32 l = 0#32 <;> by_cases hzero : x = 0#32 <;>
      simp only [popAlarm, AlarmMemory.links, hhead, hnext, hcur, hzero, if_true, if_false,
        alarms_write, alarms_setNext, alarms_setPrev, head_write, head_setNext,
        head_setPrev] <;>
      grind
  have hpred : ∀ y, y ≠ a → (popAlarm m).links.pred y =
      if y = headOr 0#32 l then 0#32 else m.links.pred y := by
    intro y hy
    by_cases hcur : headOr 0#32 l = 0#32 <;> by_cases hzero : y = 0#32 <;>
      simp only [popAlarm, AlarmMemory.links, hhead, hnext, hcur, hzero, if_true, if_false,
        alarms_write, alarms_setNext, alarms_setPrev, tail_write, tail_setNext,
        tail_setPrev] <;>
      grind
  refine ⟨?_, hhead, ?_, ?_⟩
  · refine @IsRing.remove _ m.links _ 0#32 a [] l h ?_ ?_ ⟨?_, ?_⟩
    · intro x hx hlast
      have hxa : x ≠ a := by
        rintro rfl
        rcases List.mem_cons.mp hx with hx | hx
        · exact hne hx
        · exact hnotMem hx
      exact (hsucc x hxa).trans (if_neg hlast)
    · intro y hy hfirst
      have hya : y ≠ a := by
        rintro rfl
        rcases List.mem_cons.mp hy with hy | hy
        · exact hne hy
        · exact hnotMem hy
      rw [hpred y hya, if_neg hfirst]
    · exact (hsucc 0#32 (Ne.symm hne)).trans (if_pos rfl)
    · exact (hpred _ hcurNe).trans (if_pos rfl)
  · simp [popAlarm, hhead]
  · intro b hb
    simp only [popAlarm, hhead, hnext]
    by_cases hcur : headOr 0#32 l = 0#32 <;>
      simp only [hcur, hb, if_true, if_false, alarms_write, alarms_setNext,
        alarms_setPrev] <;>
      split_ifs <;> rfl

end Wiicompiled.Runtime.AlarmQueue
