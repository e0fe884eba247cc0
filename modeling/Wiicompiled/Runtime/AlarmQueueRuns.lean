import Wiicompiled.Runtime.AlarmQueueLinks

/-!
# Runs of the alarm queue

Alarms are set and cancelled in any order, also by handlers while the queue is processed.
As long as every fire time is a number that the signed order of the insertion and the
unsigned due test read alike, the queue is ordered by due time, and handlers run once and
on time.
-/

namespace Wiicompiled.Runtime.AlarmQueue

open SentinelList

/-! ## Steps -/

/-- What the guest's `OSCancelAlarm` does: an alarm without a handler is left alone, and a
linked one is taken out of the list and has no handler afterwards. -/
structure UnlinksAlarm (osCancelAlarm : Address → AlarmMemory → AlarmMemory) : Prop where
  idle : ∀ {m : AlarmMemory} {alarm : Address},
    (m.alarms alarm).handler = 0#32 → osCancelAlarm alarm m = m
  list : ∀ {m : AlarmMemory} {alarm : Address} {front back : List Address},
    IsAlarmList m (front ++ alarm :: back) → (m.alarms alarm).handler ≠ 0#32 →
      IsAlarmList (osCancelAlarm alarm m) (front ++ back)
  handler : ∀ {m : AlarmMemory} {alarm : Address} {front back : List Address},
    IsAlarmList m (front ++ alarm :: back) → (m.alarms alarm).handler ≠ 0#32 →
      ((osCancelAlarm alarm m).alarms alarm).handler = 0#32
  other : ∀ {m : AlarmMemory} {alarm a : Address} {front back : List Address},
    IsAlarmList m (front ++ alarm :: back) → (m.alarms alarm).handler ≠ 0#32 → a ≠ alarm →
      ((osCancelAlarm alarm m).alarms a).data = (m.alarms a).data

def Linked (m : AlarmMemory) (alarm : Address) : Prop :=
  ∃ l, IsAlarmList m l ∧ alarm ∈ l

/-- One step: a set of an alarm that is not linked, a cancellation, the passing of time, and
the iterations of `ProcessAlarmQueue`.  A nested call of it returns at the recursion guard
and is no step. -/
inductive Step (guest : GuestCode) (Allowed : State → SetAlarmRegisters → Prop) :
    State → State → Prop
  | set {s : State} (r : SetAlarmRegisters) :
      ¬Linked s.memory r.gpr3 → Allowed s r → Step guest Allowed s (s.set guest r)
  | cancel {s : State} (alarm : Address) : Step guest Allowed s (s.cancel guest alarm)
  | tick {s : State} {now : BitVec 64} :
      s.now ≤ now → Step guest Allowed s { s with now := now }
  | enter {s : State} {maxToProcess : ℕ} :
      s.draining = none → 0 < maxToProcess →
      Step guest Allowed s
        { s with memory := sanitizeAlarmQueue s.memory, draining := some maxToProcess }
  | dispatch {s : State} {left : ℕ} :
      s.draining = some (left + 1) → s.HeadIsDue →
      Step guest Allowed s (s.dispatch guest left)
  | leave {s : State} {left : ℕ} :
      s.draining = some left → left = 0 ∨ ¬s.HeadIsDue →
      Step guest Allowed s { s with draining := none }

/-- All alarms are created and none is set. -/
structure Initial (s : State) : Prop where
  list : IsAlarmList s.memory []
  handler : ∀ a, (s.memory.alarms a).handler = 0#32
  draining : s.draining = none
  sets : s.sets = []
  fired : s.fired = []
  cancelled : s.cancelled = []

inductive Reachable (guest : GuestCode) (Allowed : State → SetAlarmRegisters → Prop) :
    State → Prop
  | start {s : State} : Initial s → Reachable guest Allowed s
  | step {s s' : State} :
      Reachable guest Allowed s → Step guest Allowed s s' → Reachable guest Allowed s'

/-- The fire time of a set is a signed number that is not negative. -/
def FiresInRange (guest : GuestCode) (s : State) (r : SetAlarmRegisters) : Prop :=
  0 ≤ s.fireTimeOf guest r ∧ s.fireTimeOf guest r < 2 ^ 63

/-- The queue is a list ordered by due time, no due alarm waits behind one that is not due,
and handlers run once, on time, and not after a cancellation. -/
structure OnTime (s : State) : Prop where
  list : ∃ l, IsAlarmList s.memory l ∧
    l.Pairwise (fun a b => s.due a ≤ s.due b) ∧
    (¬s.HeadIsDue → ∀ a ∈ l, (s.now.toNat : Int) < s.due a)
  once : (s.fired.map Prod.fst).Nodup
  onTime : ∀ fire ∈ s.fired, ∃ due, s.sets[fire.1]? = some due ∧ due ≤ fire.2.toNat
  cancelled : ∀ n ∈ s.cancelled, n ∉ s.fired.map Prod.fst

/-! ## The invariant -/

/-- What holds of the alarms in the list `l` in every state. -/
structure Kept (s : State) (l : List Address) : Prop where
  list : IsAlarmList s.memory l
  fireTime : ∀ a ∈ l, s.sets[s.setting a]? = some ((s.memory.alarms a).fireTime.toNat : Int)
  range : ∀ a ∈ l, (s.memory.alarms a).fireTime.toNat < 2 ^ 63
  sorted : l.Pairwise fun a b =>
    (s.memory.alarms a).fireTime.toNat ≤ (s.memory.alarms b).fireTime.toNat
  period : ∀ a ∈ l, (s.memory.alarms a).period = 0#64
  unlinked : ∀ a, a ∉ l → (s.memory.alarms a).handler = 0#32
  pending : ∀ a ∈ l, s.setting a ∉ s.fired.map Prod.fst ∧ s.setting a ∉ s.cancelled
  injective : ∀ a ∈ l, ∀ b ∈ l, s.setting a = s.setting b → a = b
  once : (s.fired.map Prod.fst).Nodup
  onTime : ∀ fire ∈ s.fired, ∃ due, s.sets[fire.1]? = some due ∧ due ≤ fire.2.toNat
  cancelled : ∀ n ∈ s.cancelled, n < s.sets.length ∧ n ∉ s.fired.map Prod.fst

variable {guest : GuestCode} {Allowed : State → SetAlarmRegisters → Prop} {s s' : State}
  {l : List Address}

theorem Initial.kept (h : Initial s) : Kept s [] where
  list := h.list
  fireTime := by simp
  range := by simp
  sorted := List.Pairwise.nil
  period := by simp
  unlinked a _ := h.handler a
  pending := by simp
  injective := by simp
  once := by simp [h.fired]
  onTime := by simp [h.fired]
  cancelled := by simp [h.cancelled]

theorem Kept.due_eq (h : Kept s l) {a : Address} (ha : a ∈ l) :
    s.due a = (s.memory.alarms a).fireTime.toNat := by
  rw [State.due, List.getD_eq_getElem?_getD, h.fireTime a ha, Option.getD_some]

theorem Kept.setting_lt (h : Kept s l) {a : Address} (ha : a ∈ l) :
    s.setting a < s.sets.length := by
  have hsome := h.fireTime a ha
  exact (List.getElem?_eq_some_iff.mp hsome).1

theorem Kept.fired_lt (h : Kept s l) {n : ℕ} (hn : n ∈ s.fired.map Prod.fst) :
    n < s.sets.length := by
  obtain ⟨fire, hfire, rfl⟩ := List.mem_map.mp hn
  obtain ⟨due, hdue, -⟩ := h.onTime fire hfire
  exact (List.getElem?_eq_some_iff.mp hdue).1

theorem Kept.onTimeAll (h : Kept s l) : OnTime s where
  list := by
    refine ⟨l, h.list, ?_, ?_⟩
    · refine h.sorted.imp_of_mem ?_
      intro a b ha hb hab
      rw [h.due_eq ha, h.due_eq hb]
      exact_mod_cast hab
    · intro hdue a ha
      rcases l with - | ⟨x, rest⟩
      · cases ha
      · have hhead : s.memory.head = x := h.list.head_eq
        have hne : x ≠ 0#32 := h.list.ne_null List.mem_cons_self
        have hnow : s.now.toNat < (s.memory.alarms x).fireTime.toNat := by
          rw [State.HeadIsDue, hhead] at hdue
          by_contra hge
          exact hdue ⟨hne, fun hlt => hge (BitVec.lt_def.mp hlt)⟩
        rw [h.due_eq ha]
        rcases List.mem_cons.mp ha with rfl | hrest
        · exact_mod_cast hnow
        · have hle := List.rel_of_pairwise_cons h.sorted hrest
          exact_mod_cast lt_of_lt_of_le hnow hle
  once := h.once
  onTime := h.onTime
  cancelled n hn := (h.cancelled n hn).2

/-! ## Steps keep the invariant -/

theorem handler_eq_of_data {a b : Alarm} (h : a.data = b.data) : a.handler = b.handler :=
  congrArg Prod.fst h

theorem fireTime_eq_of_data {a b : Alarm} (h : a.data = b.data) : a.fireTime = b.fireTime :=
  congrArg (fun data => data.2.1) h

theorem period_eq_of_data {a b : Alarm} (h : a.data = b.data) : a.period = b.period :=
  congrArg (fun data => data.2.2) h

theorem FiresInRange.toNat_eq {r : SetAlarmRegisters} (h : FiresInRange guest s r) :
    ((s.now + (r.arguments guest.isLikelyCodeAddress).1).toNat : Int) =
      s.fireTimeOf guest r := by
  obtain ⟨hnonneg, hlt⟩ := h
  simp only [State.fireTimeOf, BitVec.toInt_eq_toNat_cond] at hnonneg hlt ⊢
  have hticks := (r.arguments guest.isLikelyCodeAddress).1.isLt
  rw [BitVec.toNat_add]
  split at hnonneg <;> split at hlt <;> split <;> omega

theorem slt_iff_of_lt {x y : BitVec 64} (hx : x.toNat < 2 ^ 63) (hy : y.toNat < 2 ^ 63) :
    x.slt y = true ↔ x.toNat < y.toNat := by
  rw [BitVec.slt_iff_toInt_lt, BitVec.toInt_eq_toNat_of_lt (by omega),
    BitVec.toInt_eq_toNat_of_lt (by omega)]
  exact Int.ofNat_lt

theorem pairwise_insert {α : Type*} {key : α → ℕ} {front back : List α} {x : α}
    (h : (front ++ back).Pairwise fun a b => key a ≤ key b)
    (hfront : ∀ a ∈ front, key a ≤ key x) (hback : ∀ b ∈ back.head?, key x ≤ key b) :
    (front ++ x :: back).Pairwise fun a b => key a ≤ key b := by
  obtain ⟨hfrontPairs, hbackPairs, hcross⟩ := List.pairwise_append.mp h
  refine List.pairwise_append.mpr
    ⟨hfrontPairs, List.pairwise_cons.mpr ⟨?_, hbackPairs⟩, ?_⟩
  · intro b hb
    rcases back with - | ⟨y, rest⟩
    · cases hb
    · rcases List.mem_cons.mp hb with rfl | hb
      · exact hback b rfl
      · exact (hback y rfl).trans (List.rel_of_pairwise_cons hbackPairs hb)
  · intro a ha b hb
    rcases List.mem_cons.mp hb with rfl | hb
    · exact hfront a ha
    · exact hcross a ha b hb

theorem Kept.set
    (h : Kept s l) {r : SetAlarmRegisters} (hfree : ¬Linked s.memory r.gpr3)
    (hrange : FiresInRange guest s r) : ∃ l', Kept (s.set guest r) l' := by
  by_cases hne : r.gpr3 = 0#32
  · exact ⟨l, by rwa [State.set, if_pos hne]⟩
  · have hfree : r.gpr3 ∉ l := fun hmem => hfree ⟨l, h.list, hmem⟩
    obtain ⟨front, back, rfl, hring, hdata, hother, hfront, hback⟩ :=
      osSetAlarm_spec h.list guest.isLikelyCodeAddress s.now hne hfree
    obtain ⟨fireTime, hfireTime⟩ : ∃ fireTime,
      fireTime = s.now + (r.arguments guest.isLikelyCodeAddress).1 := ⟨_, rfl⟩
    have hfire := hrange.toNat_eq
    rw [← hfireTime] at hdata hfront hback hfire
    have hfireLt : fireTime.toNat < 2 ^ 63 := by
      have := hrange.2
      omega
    rw [State.set, if_neg hne]
    obtain ⟨m, hm⟩ : ∃ m, m = osSetAlarm guest.isLikelyCodeAddress s.now r s.memory :=
      ⟨_, rfl⟩
    rw [← hm] at hring hdata hother ⊢
    have hneAlarm : ∀ a ∈ front ++ back, a ≠ r.gpr3 := by
      rintro a ha rfl
      exact hfree ha
    have hnew : (m.alarms r.gpr3).fireTime = fireTime := congrArg (fun d => d.2.1) hdata
    have hold : ∀ a ∈ front ++ back, (m.alarms a).fireTime = (s.memory.alarms a).fireTime :=
      fun a ha => fireTime_eq_of_data (hother a (hneAlarm a ha))
    have hmem : ∀ a, a ∈ front ++ r.gpr3 :: back ↔ a = r.gpr3 ∨ a ∈ front ++ back := by
      intro a
      simp only [List.mem_append, List.mem_cons]
      tauto
    refine ⟨front ++ r.gpr3 :: back, hring, ?_, ?_, ?_, ?_, ?_, ?_, ?_, h.once, ?_, ?_⟩
    · intro a ha
      rcases (hmem a).mp ha with rfl | ha
      · simp [hnew, hfire]
      · have hlt := h.setting_lt ha
        simp only [Function.update_of_ne (hneAlarm a ha)]
        rw [List.getElem?_append_left hlt, h.fireTime a ha, hold a ha]
    · intro a ha
      rcases (hmem a).mp ha with rfl | ha
      · rwa [hnew]
      · rw [hold a ha]
        exact h.range a ha
    · have hkept : (front ++ back).Pairwise fun a b =>
          (m.alarms a).fireTime.toNat ≤ (m.alarms b).fireTime.toNat := by
        refine h.sorted.imp_of_mem ?_
        intro a b ha hb hab
        rwa [hold a ha, hold b hb]
      refine pairwise_insert hkept ?_ ?_
      · intro a ha
        have hamem : a ∈ front ++ back := List.mem_append_left _ ha
        rw [hnew, hold a hamem]
        by_contra hlt
        have hslt := (slt_iff_of_lt hfireLt (h.range a hamem)).mpr (by omega)
        rw [hfront a ha] at hslt
        cases hslt
      · intro b hb
        have hbmem : b ∈ front ++ back :=
          List.mem_append_right _ (List.mem_of_mem_head? hb)
        rw [hnew, hold b hbmem]
        exact ((slt_iff_of_lt hfireLt (h.range b hbmem)).mp (hback b hb)).le
    · intro a ha
      rcases (hmem a).mp ha with rfl | ha
      · exact congrArg (fun d => d.2.2) hdata
      · exact (period_eq_of_data (hother a (hneAlarm a ha))).trans (h.period a ha)
    · intro a ha
      rw [hmem, not_or] at ha
      exact (handler_eq_of_data (hother a ha.1)).trans (h.unlinked a ha.2)
    · intro a ha
      rcases (hmem a).mp ha with rfl | ha
      · simp only [Function.update_self]
        exact ⟨fun hn => lt_irrefl _ (h.fired_lt hn),
          fun hn => lt_irrefl _ (h.cancelled _ hn).1⟩
      · simp only [Function.update_of_ne (hneAlarm a ha)]
        exact h.pending a ha
    · intro a ha b hb hab
      rcases (hmem a).mp ha with rfl | ha <;> rcases (hmem b).mp hb with rfl | hb
      · rfl
      · simp only [Function.update_self, Function.update_of_ne (hneAlarm b hb)] at hab
        exact absurd hab (h.setting_lt hb).ne'
      · simp only [Function.update_self, Function.update_of_ne (hneAlarm a ha)] at hab
        exact absurd hab (h.setting_lt ha).ne
      · simp only [Function.update_of_ne (hneAlarm a ha),
          Function.update_of_ne (hneAlarm b hb)] at hab
        exact h.injective a ha b hb hab
    · intro fire hfire
      obtain ⟨due, hdue, hle⟩ := h.onTime fire hfire
      have hlt := (List.getElem?_eq_some_iff.mp hdue).1
      exact ⟨due, by rw [List.getElem?_append_left hlt, hdue], hle⟩
    · intro n hn
      obtain ⟨hlt, hfired⟩ := h.cancelled n hn
      refine ⟨?_, hfired⟩
      rw [List.length_append]
      omega

theorem Kept.cancel
    (h : Kept s l) (hcancel : UnlinksAlarm guest.osCancelAlarm) (alarm : Address) :
    ∃ l', Kept (s.cancel guest alarm) l' := by
  by_cases hhandler : (s.memory.alarms alarm).handler = 0#32
  · refine ⟨l, ?_⟩
    rw [State.cancel, hcancel.idle hhandler, if_pos hhandler]
    exact h
  · have hmem : alarm ∈ l := by
      by_contra hnot
      exact hhandler (h.unlinked alarm hnot)
    obtain ⟨front, back, rfl⟩ := List.append_of_mem hmem
    have hother := fun a ha => @UnlinksAlarm.other _ hcancel _ alarm a _ _ h.list hhandler ha
    have hnodup : alarm ∉ front ++ back := by
      have hperm : (front ++ alarm :: back).Perm (alarm :: (front ++ back)) :=
        List.perm_middle
      exact (List.nodup_cons.mp (hperm.nodup_iff.mp h.list.nodup_list)).1
    have hsub : ∀ a ∈ front ++ back, a ∈ front ++ alarm :: back := by
      intro a ha
      simp only [List.mem_append, List.mem_cons] at ha ⊢
      tauto
    have hneAlarm : ∀ a ∈ front ++ back, a ≠ alarm := by
      rintro a ha rfl
      exact hnodup ha
    have hfire : ∀ a ∈ front ++ back, ((guest.osCancelAlarm alarm s.memory).alarms a).fireTime =
        (s.memory.alarms a).fireTime :=
      fun a ha => fireTime_eq_of_data (hother a (hneAlarm a ha))
    have hsorted : (front ++ back).Pairwise fun a b =>
        (s.memory.alarms a).fireTime.toNat ≤ (s.memory.alarms b).fireTime.toNat :=
      h.sorted.sublist (List.Sublist.append_left (List.sublist_cons_self alarm back) front)
    rw [State.cancel, if_neg hhandler]
    refine ⟨front ++ back, hcancel.list h.list hhandler, ?_, ?_, ?_, ?_, ?_, ?_, ?_, h.once,
      h.onTime, ?_⟩
    · intro a ha
      exact (h.fireTime a (hsub a ha)).trans (by rw [hfire a ha])
    · intro a ha
      rw [hfire a ha]
      exact h.range a (hsub a ha)
    · refine hsorted.imp_of_mem ?_
      intro a b ha hb hab
      rwa [hfire a ha, hfire b hb]
    · intro a ha
      exact (period_eq_of_data (hother a (hneAlarm a ha))).trans (h.period a (hsub a ha))
    · intro a ha
      by_cases hsame : a = alarm
      · rw [hsame]
        exact hcancel.handler h.list hhandler
      · refine (handler_eq_of_data (hother a hsame)).trans (h.unlinked a ?_)
        simp only [List.mem_append, List.mem_cons] at ha ⊢
        tauto
    · intro a ha
      obtain ⟨hfired, hcancelled⟩ := h.pending a (hsub a ha)
      refine ⟨hfired, ?_⟩
      simp only [List.mem_append, List.mem_singleton, not_or]
      exact ⟨hcancelled, fun heq => hneAlarm a ha (h.injective a (hsub a ha) alarm hmem heq)⟩
    · intro a ha b hb
      exact h.injective a (hsub a ha) b (hsub b hb)
    · intro n hn
      rcases List.mem_append.mp hn with hn | hn
      · exact h.cancelled n hn
      · rw [List.mem_singleton.mp hn]
        exact ⟨h.setting_lt hmem, (h.pending alarm hmem).1⟩

theorem Kept.dispatch
    (h : Kept s l) (hdue : s.HeadIsDue) (left : ℕ) : ∃ l', Kept (s.dispatch guest left) l' := by
  rcases l with - | ⟨x, rest⟩
  · exact absurd h.list.head_eq hdue.1
  · obtain ⟨hring, hhead, hhandler, hother⟩ := popAlarm_spec h.list
    have hx : x ∈ x :: rest := List.mem_cons_self
    have hsub : ∀ a ∈ rest, a ∈ x :: rest := fun a ha => List.mem_cons_of_mem _ ha
    have hnotMem : x ∉ rest := (List.nodup_cons.mp h.list.nodup_list).1
    have hneAlarm : ∀ a ∈ rest, a ≠ x := by
      rintro a ha rfl
      exact hnotMem ha
    have hfire : ∀ a ∈ rest, ((popAlarm s.memory).alarms a).fireTime =
        (s.memory.alarms a).fireTime :=
      fun a ha => fireTime_eq_of_data (hother a (hneAlarm a ha))
    have hperiod : (s.memory.alarms x).period = 0#64 := h.period x hx
    have hnow : (s.memory.alarms x).fireTime.toNat ≤ s.now.toNat := by
      have := hdue.2
      rw [hhead, BitVec.lt_def, Nat.not_lt] at this
      exact this
    have hfired : ∀ n, n ∈ (if (s.memory.alarms x).handler ≠ 0#32 then
        s.fired ++ [(s.setting x, s.now)] else s.fired).map Prod.fst →
        n ∈ s.fired.map Prod.fst ∨ n = s.setting x := by
      intro n hn
      split at hn
      · rw [List.map_append, List.mem_append] at hn
        simpa using hn
      · exact Or.inl hn
    simp only [State.dispatch, hhead, hperiod, ne_eq, not_true_eq_false, if_false]
    refine ⟨rest, hring, ?_, ?_, ?_, ?_, ?_, ?_, ?_, ?_, ?_, ?_⟩
    · intro a ha
      exact (h.fireTime a (hsub a ha)).trans (by rw [hfire a ha])
    · intro a ha
      rw [hfire a ha]
      exact h.range a (hsub a ha)
    · refine (List.pairwise_cons.mp h.sorted).2.imp_of_mem ?_
      intro a b ha hb hab
      rwa [hfire a ha, hfire b hb]
    · intro a ha
      exact (period_eq_of_data (hother a (hneAlarm a ha))).trans (h.period a (hsub a ha))
    · intro a ha
      by_cases hsame : a = x
      · rw [hsame]
        exact hhandler
      · refine (handler_eq_of_data (hother a hsame)).trans (h.unlinked a ?_)
        rw [List.mem_cons, not_or]
        exact ⟨hsame, ha⟩
    · intro a ha
      obtain ⟨hnotFired, hcancelled⟩ := h.pending a (hsub a ha)
      refine ⟨fun hn => ?_, hcancelled⟩
      rcases hfired _ hn with hn | hn
      · exact hnotFired hn
      · exact hneAlarm a ha (h.injective a (hsub a ha) x hx hn)
    · intro a ha b hb
      exact h.injective a (hsub a ha) b (hsub b hb)
    · split
      · rw [List.map_append]
        refine List.nodup_append.mpr ⟨h.once, by simp, ?_⟩
        intro n hn n' hn' heq
        simp only [List.map_cons, List.map_nil, List.mem_singleton] at hn'
        rw [heq, hn'] at hn
        exact (h.pending x hx).1 hn
      · exact h.once
    · intro fire hmem
      split at hmem
      · rcases List.mem_append.mp hmem with hmem | hmem
        · exact h.onTime fire hmem
        · rw [List.mem_singleton.mp hmem]
          exact ⟨_, h.fireTime x hx, by exact_mod_cast hnow⟩
      · exact h.onTime fire hmem
    · intro n hn
      obtain ⟨hlt, hnotFired⟩ := h.cancelled n hn
      refine ⟨hlt, fun hmem => ?_⟩
      rcases hfired _ hmem with hmem | hmem
      · exact hnotFired hmem
      · rw [hmem] at hn
        exact (h.pending x hx).2 hn

theorem Kept.step
    (h : Kept s l) (hcancel : UnlinksAlarm guest.osCancelAlarm)
    (hstep : Step guest (FiresInRange guest) s s') : ∃ l', Kept s' l' := by
  cases hstep with
  | set r hfree hrange => exact h.set hfree hrange
  | cancel alarm => exact h.cancel hcancel alarm
  | tick _ => exact ⟨l, { h with }⟩
  | enter _ _ =>
      refine ⟨l, ?_⟩
      rw [sanitizeAlarmQueue_of_isAlarmList h.list]
      exact { h with }
  | dispatch _ hdue => exact h.dispatch hdue _
  | leave _ _ => exact ⟨l, { h with }⟩

/-- While every set fires in range, the queue is ordered and handlers run once and on
time. -/
theorem onTime_of_firesInRange
    (hcancel : UnlinksAlarm guest.osCancelAlarm)
    (hreachable : Reachable guest (FiresInRange guest) s) : OnTime s := by
  have hkept : ∃ l, Kept s l := by
    induction hreachable with
    | start hinitial => exact ⟨[], hinitial.kept⟩
    | step _ hstep ih =>
        obtain ⟨l, h⟩ := ih
        exact h.step hcancel hstep
  obtain ⟨l, h⟩ := hkept
  exact h.onTimeAll

/-! ## No set is lost -/

def FiresHandler (guest : GuestCode) (s : State) (r : SetAlarmRegisters) : Prop :=
  FiresInRange guest s r ∧ (r.arguments guest.isLikelyCodeAddress).2 ≠ 0#32

/-- The handler of the set ran, or the set was cancelled, or its alarm has its handler. -/
def Answered (s : State) (n : ℕ) : Prop :=
  n ∈ s.fired.map Prod.fst ∨ n ∈ s.cancelled ∨
    ∃ a, (s.memory.alarms a).handler ≠ 0#32 ∧ s.setting a = n

theorem Step.mono
    {Allowed' : State → SetAlarmRegisters → Prop} (hallowed : ∀ s r, Allowed s r → Allowed' s r)
    (h : Step guest Allowed s s') : Step guest Allowed' s s' := by
  cases h with
  | set r hfree hset => exact .set r hfree (hallowed s r hset)
  | cancel alarm => exact .cancel alarm
  | tick hle => exact .tick hle
  | enter hidle hpos => exact .enter hidle hpos
  | dispatch hleft hdue => exact .dispatch hleft hdue
  | leave hleft hdone => exact .leave hleft hdone

theorem Kept.answered_step
    (h : Kept s l) (hcancel : UnlinksAlarm guest.osCancelAlarm)
    (hanswered : ∀ n < s.sets.length, Answered s n)
    (hstep : Step guest (FiresHandler guest) s s') : ∀ n < s'.sets.length, Answered s' n := by
  cases hstep with
  | set r hfree hallowed =>
      by_cases hnull : r.gpr3 = 0#32
      · rwa [State.set, if_pos hnull]
      · have hnotMem : r.gpr3 ∉ l := fun hmem => hfree ⟨l, h.list, hmem⟩
        obtain ⟨_, _, _, _, hdata, hother, _⟩ :=
          osSetAlarm_spec h.list guest.isLikelyCodeAddress s.now hnull hnotMem
        rw [State.set, if_neg hnull]
        intro n hn
        rw [List.length_append, List.length_singleton, Nat.lt_succ_iff_lt_or_eq] at hn
        rcases hn with hlt | rfl
        · rcases hanswered n hlt with hfired | hcancelled | ⟨a, ha, hset⟩
          · exact .inl hfired
          · exact .inr (.inl hcancelled)
          · have hne : a ≠ r.gpr3 := by
              rintro rfl
              exact ha (h.unlinked _ hnotMem)
            refine .inr (.inr ⟨a, ?_, (Function.update_of_ne hne ..).trans hset⟩)
            rwa [handler_eq_of_data (hother a hne)]
        · refine .inr (.inr ⟨r.gpr3, ?_, Function.update_self ..⟩)
          exact fun hzero => hallowed.2 ((congrArg Prod.fst hdata).symm.trans hzero)
  | cancel alarm =>
      intro n hn
      by_cases hhandler : (s.memory.alarms alarm).handler = 0#32
      · rw [State.cancel, hcancel.idle hhandler, if_pos hhandler]
        exact hanswered n hn
      · obtain ⟨front, back, rfl⟩ := List.append_of_mem
          (by_contra fun hnot => hhandler (h.unlinked alarm hnot))
        rw [State.cancel, if_neg hhandler]
        rcases hanswered n hn with hfired | hcancelled | ⟨a, ha, rfl⟩
        · exact .inl hfired
        · exact .inr (.inl (List.mem_append_left _ hcancelled))
        · by_cases hsame : a = alarm
          · exact .inr (.inl (by simp [hsame]))
          · refine .inr (.inr ⟨a, ?_, rfl⟩)
            rwa [handler_eq_of_data (hcancel.other h.list hhandler hsame)]
  | dispatch _ hdue =>
      intro n hn
      rcases l with - | ⟨x, rest⟩
      · exact absurd h.list.head_eq hdue.1
      obtain ⟨_, hhead, _, hother⟩ := popAlarm_spec h.list
      have hperiod := h.period x List.mem_cons_self
      simp only [State.dispatch, Answered, hhead, hperiod, ne_eq, not_true_eq_false, if_false]
      rcases hanswered n hn with hfired | hcancelled | ⟨a, ha, rfl⟩
      · refine .inl ?_
        split
        · rw [List.map_append]
          exact List.mem_append_left _ hfired
        · exact hfired
      · exact .inr (.inl hcancelled)
      · by_cases hsame : a = x
        · rw [hsame] at ha ⊢
          exact .inl (by simp [ha])
        · refine .inr (.inr ⟨a, ?_, rfl⟩)
          rwa [handler_eq_of_data (hother a hsame)]
  | tick _ => exact hanswered
  | enter _ _ =>
      rw [sanitizeAlarmQueue_of_isAlarmList h.list]
      exact hanswered
  | leave _ _ => exact hanswered

/-- No set is lost: its handler ran, or it was cancelled, or its alarm is in the queue. -/
theorem ran_or_cancelled_or_linked
    (hcancel : UnlinksAlarm guest.osCancelAlarm)
    (hreachable : Reachable guest (FiresHandler guest) s) {n : ℕ} (hn : n < s.sets.length) :
    n ∈ s.fired.map Prod.fst ∨ n ∈ s.cancelled ∨
      ∃ a, Linked s.memory a ∧ s.setting a = n := by
  have hkept : ∃ l, Kept s l ∧ ∀ n < s.sets.length, Answered s n := by
    clear hn
    induction hreachable with
    | start hinitial => exact ⟨[], hinitial.kept, by simp [hinitial.sets]⟩
    | step _ hstep ih =>
        obtain ⟨l, h, hanswered⟩ := ih
        obtain ⟨l', h'⟩ := h.step hcancel (hstep.mono fun _ _ hallowed => hallowed.1)
        exact ⟨l', h', h.answered_step hcancel hanswered hstep⟩
  obtain ⟨l, h, hanswered⟩ := hkept
  rcases hanswered n hn with hfired | hcancelled | ⟨a, ha, hset⟩
  · exact .inl hfired
  · exact .inr (.inl hcancelled)
  · exact .inr (.inr ⟨a, ⟨l, h.list, by_contra fun hnot => ha (h.unlinked a hnot)⟩, hset⟩)

/-! ## A cancellation and two runs -/

/-- A cancellation that unlinks the alarm and clears its handler. -/
def unlinkAlarm (alarm : Address) (m : AlarmMemory) : AlarmMemory :=
  if (m.alarms alarm).handler = 0#32 then m
  else
    let next := (m.alarms alarm).next
    let prev := (m.alarms alarm).prev
    let m := if next = 0#32 then { m with tail := prev } else m.setPrev next prev
    let m := if prev = 0#32 then { m with head := next } else m.setNext prev next
    m.write alarm { m.alarms alarm with handler := 0#32 }

variable {m : AlarmMemory} {alarm : Address} {front back : List Address}

theorem links_unlinkAlarm
    (hhandler : (m.alarms alarm).handler ≠ 0#32) (hne : alarm ≠ 0#32)
    (hprev : (m.alarms alarm).prev ≠ alarm) {a : Address} (ha : a ≠ alarm) :
    (unlinkAlarm alarm m).links.succ a =
        (if a = (m.alarms alarm).prev then (m.alarms alarm).next else m.links.succ a) ∧
      (unlinkAlarm alarm m).links.pred a =
        if a = (m.alarms alarm).next then (m.alarms alarm).prev else m.links.pred a := by
  obtain ⟨prev, hp⟩ : ∃ prev, prev = (m.alarms alarm).prev := ⟨_, rfl⟩
  obtain ⟨next, hn⟩ : ∃ next, next = (m.alarms alarm).next := ⟨_, rfl⟩
  by_cases hpz : prev = 0#32 <;> by_cases hnz : next = 0#32 <;> by_cases haz : a = 0#32 <;>
    simp only [unlinkAlarm, if_neg hhandler, AlarmMemory.links, ← hp, ← hn, hpz, hnz, haz,
      if_true, if_false, alarms_write, alarms_setNext, alarms_setPrev, head_write,
      head_setNext, head_setPrev, tail_write, tail_setNext, tail_setPrev] <;>
    grind

theorem unlinksAlarm_unlinkAlarm : UnlinksAlarm unlinkAlarm where
  idle h := by rw [unlinkAlarm, if_pos h]
  list := by
    intro m alarm front back h hhandler
    have hne : alarm ≠ 0#32 := h.ne_null (by simp)
    have hperm : (0#32 :: (front ++ alarm :: back)).Perm (alarm :: 0#32 :: (front ++ back)) :=
      perm_insert 0#32 alarm front back
    have hnotMem : alarm ∉ 0#32 :: (front ++ back) :=
      (List.nodup_cons.mp (hperm.nodup_iff.mp h.nodup)).1
    have hprevMem := lastOr_mem 0#32 front
    have hnextMem := headOr_mem 0#32 back
    have hprevNe : lastOr 0#32 front ≠ alarm := by
      intro heq
      rw [heq] at hprevMem
      exact hnotMem (by rw [← List.cons_append]; exact List.mem_append_left _ hprevMem)
    have hnextNe : headOr 0#32 back ≠ alarm := by
      intro heq
      rw [heq] at hnextMem
      refine hnotMem ?_
      simp only [List.mem_append, List.mem_cons, List.not_mem_nil, or_false] at hnextMem ⊢
      tauto
    have hprev : (m.alarms alarm).prev = lastOr 0#32 front := by
      have hpred := (@IsRing.linked_at _ m.links 0#32 front (alarm :: back) h).2
      simpa [AlarmMemory.links, headOr, hne] using hpred
    have hnext : (m.alarms alarm).next = headOr 0#32 back := by
      have hring : IsRing m.links 0#32 ((front ++ [alarm]) ++ back) := by
        rwa [List.append_assoc, List.singleton_append]
      have hsucc := hring.linked_at.1
      simpa [AlarmMemory.links, lastOr, hne] using hsucc
    have hlinks := fun x hx => @links_unlinkAlarm m alarm hhandler hne (by rwa [hprev]) x hx
    rw [hprev, hnext] at hlinks
    have hmemNe : ∀ x ∈ 0#32 :: (front ++ back), x ≠ alarm := by
      rintro x hx rfl
      exact hnotMem hx
    refine IsRing.remove h ?_ ?_ ⟨?_, ?_⟩
    · intro x hx hlast
      exact (hlinks x (hmemNe x hx)).1.trans (if_neg hlast)
    · intro y hy hhead
      exact (hlinks y (hmemNe y hy)).2.trans (if_neg hhead)
    · exact (hlinks _ hprevNe).1.trans (if_pos rfl)
    · exact (hlinks _ hnextNe).2.trans (if_pos rfl)
  handler := by
    intro m alarm front back _ hhandler
    simp only [unlinkAlarm, if_neg hhandler, alarms_write, if_true]
  other := by
    intro m alarm a front back _ hhandler ha
    simp only [unlinkAlarm, if_neg hhandler, alarms_write, if_neg ha]
    by_cases hprev : (m.alarms alarm).prev = 0#32 <;>
      by_cases hnext : (m.alarms alarm).next = 0#32 <;>
      simp only [hprev, hnext, if_true, if_false, alarms_setNext, alarms_setPrev] <;>
      split_ifs <;> rfl

theorem not_linked_of_head_eq_zero (h : m.head = 0#32) : ¬Linked m alarm := by
  rintro ⟨l, hlist, hmem⟩
  rw [hlist.head_eq] at h
  rcases l with - | ⟨x, rest⟩
  · cases hmem
  · exact hlist.ne_null List.mem_cons_self h

def plainGuest : GuestCode where
  isLikelyCodeAddress _ := true
  osCancelAlarm := unlinkAlarm
  insertAlarm _ _ m := m

/-- No alarm is set at time 100. -/
def emptyState : State where
  memory := { alarms := fun _ => ⟨0#32, 0#64, 0#32, 0#32, 0#64⟩, head := 0#32, tail := 0#32 }
  now := 100#64
  draining := none
  sets := []
  setting _ := 0
  fired := []
  cancelled := []

theorem initial_emptyState : Initial emptyState where
  list := isRing_nil_iff.mpr ⟨rfl, rfl⟩
  handler _ := rfl
  draining := rfl
  sets := rfl
  fired := rfl
  cancelled := rfl

/-- Ten ticks for an alarm. -/
def soonRegisters (alarm : Address) : SetAlarmRegisters :=
  ⟨alarm, 0#32, 0#32, 10#32, 0x80004000#32⟩

/-- An alarm that is set for time 110 and processed at time 200. -/
def soonFired : State :=
  ({ ({ (emptyState.set plainGuest (soonRegisters 0x80001000#32)) with
      now := 200#64 } : State) with draining := some 1 } : State).dispatch plainGuest 0

theorem reachable_soonFired :
    Reachable plainGuest (FiresInRange plainGuest) soonFired := by
  have hset : Reachable plainGuest (FiresInRange plainGuest)
      (emptyState.set plainGuest (soonRegisters 0x80001000#32)) :=
    .step (.start initial_emptyState)
      (.set _ (not_linked_of_head_eq_zero rfl) ⟨by decide, by decide⟩)
  have htick : Reachable plainGuest (FiresInRange plainGuest)
      { emptyState.set plainGuest (soonRegisters 0x80001000#32) with now := 200#64 } :=
    .step hset (.tick (by decide))
  have henter : Reachable plainGuest (FiresInRange plainGuest)
      { ({ (emptyState.set plainGuest (soonRegisters 0x80001000#32)) with
        now := 200#64 } : State) with draining := some 1 } :=
    .step htick (.enter rfl Nat.one_pos)
  exact .step henter (.dispatch rfl ⟨by decide, by decide⟩)

/-- The handler of that alarm ran once, at time 200. -/
theorem onTime_soonFired : OnTime soonFired ∧ soonFired.fired = [(0, 200#64)] :=
  ⟨onTime_of_firesInRange unlinksAlarm_unlinkAlarm reachable_soonFired, by decide⟩

theorem linked_soonSet :
    0 ∈ (emptyState.set plainGuest (soonRegisters 0x80001000#32)).fired.map Prod.fst ∨
      0 ∈ (emptyState.set plainGuest (soonRegisters 0x80001000#32)).cancelled ∨
      ∃ a, Linked (emptyState.set plainGuest (soonRegisters 0x80001000#32)).memory a ∧
        (emptyState.set plainGuest (soonRegisters 0x80001000#32)).setting a = 0 :=
  ran_or_cancelled_or_linked unlinksAlarm_unlinkAlarm
    (.step (.start initial_emptyState)
      (.set _ (not_linked_of_head_eq_zero rfl) ⟨⟨by decide, by decide⟩, by decide⟩)) (by decide)

/-- The largest number of ticks. -/
def lateRegisters (alarm : Address) : SetAlarmRegisters :=
  ⟨alarm, 0#32, 0x7FFFFFFF#32, 0xFFFFFFFF#32, 0x80004000#32⟩

/-- An alarm set for the largest number of ticks, and one for ten, at time 200. -/
def lateFirst : State :=
  { (emptyState.set plainGuest (lateRegisters 0x80001000#32)).set plainGuest
      (soonRegisters 0x80002000#32) with now := 200#64 }

theorem reachable_lateFirst : Reachable plainGuest (fun _ _ => True) lateFirst := by
  have hlate : Reachable plainGuest (fun _ _ => True)
      (emptyState.set plainGuest (lateRegisters 0x80001000#32)) :=
    .step (.start initial_emptyState) (.set _ (not_linked_of_head_eq_zero rfl) trivial)
  have hfree : ¬Linked (emptyState.set plainGuest (lateRegisters 0x80001000#32)).memory
      (soonRegisters 0x80002000#32).gpr3 := by
    rintro ⟨l, hlist, hmem⟩
    have hhead := hlist.head_eq
    rcases l with - | ⟨x, rest⟩
    · cases hmem
    · obtain rfl : 0x80001000#32 = x := hhead
      have hnext := (@IsRing.linked_at _ _ 0#32 [0x80001000#32] rest hlist).1
      rcases rest with - | ⟨y, rest⟩
      · exact absurd (List.mem_singleton.mp hmem) (by decide)
      · obtain rfl : 0#32 = y := hnext
        exact hlist.notMem (by simp)
  exact .step (.step hlate (.set _ hfree trivial)) (.tick (by decide))

/-- An alarm for the largest number of ticks is ordered first as a negative number, and the
due alarm behind it waits. -/
theorem late_alarm_blocks_queue :
    ¬∀ (guest : GuestCode), UnlinksAlarm guest.osCancelAlarm →
      ∀ s, Reachable guest (fun _ _ => True) s → OnTime s := by
  intro hall
  obtain ⟨⟨l, hlist, -, hwait⟩, -, -, -⟩ :=
    hall plainGuest unlinksAlarm_unlinkAlarm lateFirst reachable_lateFirst
  have hhead : 0x80001000#32 = headOr 0#32 l := hlist.head_eq
  rcases l with - | ⟨x, rest⟩
  · exact absurd hhead (by decide)
  · obtain rfl : 0x80001000#32 = x := hhead
    have hnext : 0x80002000#32 = headOr 0#32 rest :=
      (@IsRing.linked_at _ _ 0#32 [0x80001000#32] rest hlist).1
    rcases rest with - | ⟨y, rest⟩
    · exact absurd hnext (by decide)
    · obtain rfl : 0x80002000#32 = y := hnext
      have hnotDue : ¬lateFirst.HeadIsDue := fun hdue => hdue.2 (by decide)
      have hlt := hwait hnotDue 0x80002000#32 (by simp)
      exact absurd hlt (by decide)

end Wiicompiled.Runtime.AlarmQueue
