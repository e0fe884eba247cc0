import Wiicompiled.Voice.SpscRingBuffer

/-!
# The ring buffer loses nothing

The two totals, of pushed and of popped elements, differ by less than the capacity, whatever
older index each thread goes by: what it has seen of the other is a total that was right at
some time, and totals only grow.  So the producer writes slots that no element waits in.
-/

namespace Wiicompiled.Voice.SpscRingBuffer

/-! ## Totals modulo the capacity -/

section Totals

variable {Capacity total total' : ℕ}

theorem mod_eq_of_le (hle : total' ≤ total) (hlt : total - total' < Capacity) :
    total % Capacity =
      if total' % Capacity + (total - total') < Capacity then
        total' % Capacity + (total - total')
      else total' % Capacity + (total - total') - Capacity := by
  have hmod : total' % Capacity < Capacity := Nat.mod_lt _ (by omega)
  have htotal : total % Capacity = (total' % Capacity + (total - total')) % Capacity := by
    rw [Nat.mod_add_mod, Nat.add_sub_cancel' hle]
  rw [htotal]
  split_ifs with h
  · exact Nat.mod_eq_of_lt h
  · rw [Nat.mod_eq_sub_mod (by omega), Nat.mod_eq_of_lt (by omega)]

theorem available_mod (hle : total' ≤ total) (hlt : total - total' < Capacity) :
    available Capacity (total' % Capacity) (total % Capacity) = total - total' := by
  have hmod : total' % Capacity < Capacity := Nat.mod_lt _ (by omega)
  rw [available, mod_eq_of_le hle hlt]
  split_ifs <;> omega

theorem freeSpace_mod (hle : total' ≤ total) (hlt : total - total' < Capacity) :
    freeSpace Capacity (total % Capacity) (total' % Capacity) =
      Capacity - 1 - (total - total') := by
  have hmod : total' % Capacity < Capacity := Nat.mod_lt _ (by omega)
  rw [freeSpace, mod_eq_of_le hle hlt]
  split_ifs <;> omega

/-- Totals that are less than the capacity apart have slots of their own. -/
theorem mod_ne_mod (hlt : total' < total) (h : total - total' < Capacity) :
    total' % Capacity ≠ total % Capacity := by
  intro heq
  have hzero := Nat.sub_mod_eq_zero_of_mod_eq heq.symm
  rw [Nat.mod_eq_of_lt h] at hzero
  omega

theorem available_lt {read write : ℕ} (hread : read < Capacity) (hwrite : write < Capacity) :
    available Capacity read write < Capacity := by
  rw [available]
  split_ifs <;> omega

end Totals

/-! ## The invariant -/

section Invariant

variable {T : Type*} {Capacity : ℕ} {s s' : Ring T}

/-- The stored indices of one side are its totals, which only grow up to the last one. -/
structure Stored (Capacity : ℕ) (indices totals : List ℕ) (last : ℕ) : Prop where
  indices : indices = totals.map (· % Capacity)
  last : totals.getLast? = some last
  growing : totals.Pairwise (· ≤ ·)

/-- The producer goes by its own total and by a total of the consumer that leaves it room. -/
def ProducerSound (Capacity : ℕ) (s : Ring T) : Prop :=
  match s.producer with
  | .idle | .called _ => True
  | .loaded _ write => write = s.pushed.length % Capacity
  | .copying values write count i =>
      write = s.pushed.length % Capacity ∧ i ≤ count ∧ count ≤ values.length ∧
        (∃ seen, s.readTotals[s.readSeen]? = some seen ∧
          s.pushed.length + count < seen + Capacity) ∧
        ∀ j value, j < i → values[j]? = some value →
          s.data_ ((s.pushed.length + j) % Capacity) = value

/-- The consumer goes by its own total and by a total of the producer that has elements left. -/
def ConsumerSound (Capacity : ℕ) (s : Ring T) : Prop :=
  match s.consumer with
  | .idle | .called _ => True
  | .loaded _ read => read = s.popped.length % Capacity
  | .copying read count values =>
      read = s.popped.length % Capacity ∧ values.length ≤ count ∧
        (∃ seen, s.writeTotals[s.writeSeen]? = some seen ∧ s.popped.length + count ≤ seen) ∧
        values <+: s.pushed.drop s.popped.length

structure Inv (Capacity : ℕ) (s : Ring T) : Prop where
  writes : Stored Capacity s.write_ s.writeTotals s.pushed.length
  reads : Stored Capacity s.read_ s.readTotals s.popped.length
  readSeen : ∃ seen, s.readTotals[s.readSeen]? = some seen ∧
    s.pushed.length < seen + Capacity
  writeSeen : ∃ seen, s.writeTotals[s.writeSeen]? = some seen ∧ s.popped.length ≤ seen
  fifo : s.popped <+: s.pushed
  slots : ∀ k value, s.popped.length ≤ k → s.pushed[k]? = some value →
    s.data_ (k % Capacity) = value
  producer : ProducerSound Capacity s
  consumer : ConsumerSound Capacity s

namespace Stored

variable {indices totals : List ℕ} {last total place place' index : ℕ}

theorem le_last (h : Stored Capacity indices totals last) (hmem : total ∈ totals) :
    total ≤ last := by
  obtain ⟨before, hbefore⟩ := List.getLast?_eq_some_iff.mp h.last
  have hgrowing := h.growing
  rw [hbefore, List.pairwise_append] at hgrowing
  rw [hbefore, List.mem_append, List.mem_singleton] at hmem
  rcases hmem with hmem | rfl
  · exact hgrowing.2.2 total hmem last (List.mem_singleton_self last)
  · exact Nat.le_refl _

theorem index_eq (h : Stored Capacity indices totals last) (hplace : indices[place]? = some index) :
    ∃ total, totals[place]? = some total ∧ index = total % Capacity ∧ total ≤ last := by
  rw [h.indices, List.getElem?_map, Option.map_eq_some_iff] at hplace
  obtain ⟨total, htotal, rfl⟩ := hplace
  exact ⟨total, htotal, rfl, h.le_last (List.mem_of_getElem? htotal)⟩

theorem getLast_eq (h : Stored Capacity indices totals last)
    (hindex : indices.getLast? = some index) : index = last % Capacity := by
  rw [h.indices, List.getLast?_map, h.last] at hindex
  exact (Option.some.inj hindex).symm

theorem le_of_place_le (h : Stored Capacity indices totals last) {total' : ℕ}
    (hle : place ≤ place') (htotal : totals[place]? = some total)
    (htotal' : totals[place']? = some total') : total ≤ total' := by
  obtain ⟨hlt, rfl⟩ := List.getElem?_eq_some_iff.mp htotal
  obtain ⟨hlt', rfl⟩ := List.getElem?_eq_some_iff.mp htotal'
  rcases Nat.eq_or_lt_of_le hle with rfl | hne
  · exact Nat.le_refl _
  · exact List.pairwise_iff_getElem.mp h.growing place place' hlt hlt' hne

theorem append (h : Stored Capacity indices totals last) {count : ℕ} :
    Stored Capacity (indices ++ [(last % Capacity + count) % Capacity])
      (totals ++ [last + count]) (last + count) where
  indices := by rw [List.map_append, ← h.indices, List.map_singleton, Nat.mod_add_mod]
  last := List.getLast?_concat
  growing := by
    refine List.pairwise_append.mpr ⟨h.growing, List.pairwise_singleton _ _, ?_⟩
    intro total htotal total' htotal'
    rw [List.mem_singleton.mp htotal']
    exact Nat.le_trans (h.le_last htotal) (Nat.le_add_right _ _)

end Stored

theorem inv_initial [Inhabited T] (hcap : 1 < Capacity) : Inv Capacity (Ring.initial : Ring T) where
  writes := ⟨rfl, rfl, List.pairwise_singleton _ _⟩
  reads := ⟨rfl, rfl, List.pairwise_singleton _ _⟩
  readSeen := ⟨0, rfl, by rw [Nat.zero_add]; exact Nat.lt_of_succ_lt hcap⟩
  writeSeen := ⟨0, rfl, Nat.le_refl _⟩
  fifo := List.prefix_rfl
  slots _ _ _ h := nomatch h
  producer := trivial
  consumer := trivial

theorem append_prefix {values list : List T} {value : T} (h : values <+: list)
    (hvalue : list[values.length]? = some value) : values ++ [value] <+: list := by
  obtain ⟨rest, rfl⟩ := h
  rw [List.getElem?_append_right (Nat.le_refl _), Nat.sub_self] at hvalue
  obtain ⟨rest', rfl⟩ := List.head?_eq_some_iff.mp (List.head?_eq_getElem?.trans hvalue)
  exact ⟨rest', by rw [List.append_assoc, List.singleton_append]⟩

theorem getElem?_append_some {totals more : List ℕ} {place total : ℕ}
    (h : totals[place]? = some total) : (totals ++ more)[place]? = some total := by
  obtain ⟨hlt, -⟩ := List.getElem?_eq_some_iff.mp h
  rw [List.getElem?_append_left hlt, h]

theorem Inv.popped_le (h : Inv Capacity s) : s.popped.length ≤ s.pushed.length :=
  h.fifo.length_le

theorem Inv.pushed_lt (h : Inv Capacity s) : s.pushed.length < s.popped.length + Capacity := by
  obtain ⟨seen, hseen, hlt⟩ := h.readSeen
  have hle := h.reads.le_last (List.mem_of_getElem? hseen)
  omega

theorem Inv.loadRead (h : Inv Capacity s) {values : List T} {write read place : ℕ}
    (hproducer : s.producer = .loaded values write) (hread : s.read_[place]? = some read)
    (hplace : s.readSeen ≤ place) :
    Inv Capacity
      { s with
        producer := .copying values write (min values.length (freeSpace Capacity write read)) 0
        readSeen := place } := by
  have hwrite := h.producer
  rw [ProducerSound, hproducer] at hwrite
  obtain ⟨seen, hseen, rfl, hlast⟩ := h.reads.index_eq hread
  obtain ⟨before, hbefore, hlt⟩ := h.readSeen
  have hle := h.reads.le_of_place_le hplace hbefore hseen
  have hpopped := h.popped_le
  have hcount : s.pushed.length +
      min values.length (freeSpace Capacity write (seen % Capacity)) < seen + Capacity := by
    rw [show write = s.pushed.length % Capacity from hwrite,
      freeSpace_mod (by omega) (by omega)]
    omega
  have hroom : s.pushed.length < seen + Capacity := by omega
  refine { h with readSeen := ⟨seen, hseen, hroom⟩, producer := ?_ }
  exact ⟨hwrite, Nat.zero_le _, Nat.min_le_left _ _, ⟨seen, hseen, hcount⟩,
    fun j value hj => absurd hj (Nat.not_lt_zero j)⟩

/-- The slot that the producer writes is apart from the slots that it has written, and from
those of the elements that wait. -/
theorem Inv.slot_ne (h : Inv Capacity s) {values : List T} {write count i k : ℕ}
    (hproducer : s.producer = .copying values write count i) (hi : i < count)
    (hpopped : s.popped.length ≤ k) (hk : k < s.pushed.length + i) :
    k % Capacity ≠ (write + i) % Capacity := by
  have hsound := h.producer
  rw [ProducerSound, hproducer] at hsound
  obtain ⟨rfl, -, -, ⟨seen, hseen, hlt⟩, -⟩ := hsound
  have hle := h.reads.le_last (List.mem_of_getElem? hseen)
  rw [Nat.mod_add_mod]
  exact mod_ne_mod hk (by omega)

theorem Inv.copyIn (h : Inv Capacity s) {values : List T} {write count i : ℕ} {value : T}
    (hproducer : s.producer = .copying values write count i) (hi : i < count)
    (hvalue : values[i]? = some value) :
    Inv Capacity
      { s with
        data_ := Function.update s.data_ ((write + i) % Capacity) value
        producer := .copying values write count (i + 1) } := by
  have hsound := h.producer
  rw [ProducerSound, hproducer] at hsound
  obtain ⟨hwrite, -, hcount, hseen, hcopied⟩ := hsound
  have hpopped := h.popped_le
  have hslots : ∀ k other, s.popped.length ≤ k → s.pushed[k]? = some other →
      Function.update s.data_ ((write + i) % Capacity) value (k % Capacity) = other := by
    intro k other hk hother
    obtain ⟨hlt, -⟩ := List.getElem?_eq_some_iff.mp hother
    rw [Function.update_of_ne (h.slot_ne hproducer hi hk (by omega))]
    exact h.slots k other hk hother
  refine { h with slots := hslots, producer := ?_ }
  refine ⟨hwrite, hi, hcount, hseen, fun j other hj hother => ?_⟩
  by_cases heq : j = i
  · rw [heq] at hother ⊢
    rw [hwrite, Nat.mod_add_mod]
    exact (Function.update_self _ _ _).trans (Option.some.inj (hvalue.symm.trans hother))
  · have hne := h.slot_ne (k := s.pushed.length + j) hproducer hi (by omega) (by omega)
    exact (Function.update_of_ne hne _ _).trans (hcopied j other (by omega) hother)

theorem Inv.storeWrite (h : Inv Capacity s) {values : List T} {write count : ℕ}
    (hproducer : s.producer = .copying values write count count) :
    Inv Capacity
      { s with
        write_ := s.write_ ++ [(write + count) % Capacity]
        producer := .idle
        pushed := s.pushed ++ values.take count
        writeTotals := s.writeTotals ++ [s.pushed.length + count] } := by
  have hsound := h.producer
  rw [ProducerSound, hproducer] at hsound
  obtain ⟨rfl, -, hcount, ⟨seen, hseen, hlt⟩, hcopied⟩ := hsound
  have hlength : (s.pushed ++ values.take count).length = s.pushed.length + count := by
    rw [List.length_append, List.length_take, Nat.min_eq_left hcount]
  refine { h with
    writes := ?_, readSeen := ⟨seen, hseen, ?_⟩, writeSeen := ?_, fifo := ?_,
    slots := fun k value hk hvalue => ?_, producer := trivial, consumer := ?_ }
  · rw [hlength]
    exact h.writes.append
  · rw [hlength]
    exact hlt
  · obtain ⟨seen, hseen, hle⟩ := h.writeSeen
    exact ⟨seen, getElem?_append_some hseen, hle⟩
  · exact h.fifo.trans (List.prefix_append _ _)
  · by_cases hold : k < s.pushed.length
    · rw [List.getElem?_append_left hold] at hvalue
      exact h.slots k value hk hvalue
    · rw [List.getElem?_append_right (by omega), List.getElem?_take] at hvalue
      split_ifs at hvalue with hnew
      have hdata := hcopied (k - s.pushed.length) value hnew hvalue
      rwa [Nat.add_sub_cancel' (by omega)] at hdata
  · have hconsumer := h.consumer
    simp only [ConsumerSound] at hconsumer ⊢
    rcases hc : s.consumer with _ | size | ⟨size, read⟩ | ⟨read, number, popping⟩
    · trivial
    · trivial
    · rw [hc] at hconsumer
      exact hconsumer
    · rw [hc] at hconsumer
      obtain ⟨hread, hsize, ⟨seen, hseen, hle⟩, hprefix⟩ := hconsumer
      refine ⟨hread, hsize, ⟨seen, getElem?_append_some hseen, hle⟩, ?_⟩
      rw [List.drop_append_of_le_length h.popped_le]
      exact hprefix.trans (List.prefix_append _ _)

theorem Inv.stepProducer (h : Inv Capacity s) {action : Action T}
    (hstep : stepProducer Capacity s action = some s') : Inv Capacity s' := by
  cases action with
  | push values =>
      simp only [SpscRingBuffer.stepProducer] at hstep
      split at hstep
      · obtain rfl := Option.some.inj hstep
        exact { h with producer := trivial }
      · exact nomatch hstep
  | loadOwnWrite =>
      simp only [SpscRingBuffer.stepProducer] at hstep
      split at hstep
      next values write hproducer hlast =>
        obtain rfl := Option.some.inj hstep
        exact { h with producer := h.writes.getLast_eq hlast }
      · exact nomatch hstep
  | loadRead place =>
      simp only [SpscRingBuffer.stepProducer] at hstep
      split at hstep
      next values write read hproducer hread =>
        split_ifs at hstep with hplace
        obtain rfl := Option.some.inj hstep
        exact h.loadRead hproducer hread hplace
      · exact nomatch hstep
  | copyIn =>
      simp only [SpscRingBuffer.stepProducer] at hstep
      split at hstep
      next values write count i hproducer =>
        split_ifs at hstep with hi
        obtain ⟨value, hvalue, rfl⟩ := Option.map_eq_some_iff.mp hstep
        exact h.copyIn hproducer hi hvalue
      · exact nomatch hstep
  | storeWrite =>
      simp only [SpscRingBuffer.stepProducer] at hstep
      split at hstep
      next values write count i hproducer =>
        split_ifs at hstep with hi
        obtain rfl := Option.some.inj hstep
        exact h.storeWrite (hi ▸ hproducer)
      · exact nomatch hstep
  | pop size => exact nomatch hstep
  | loadOwnRead => exact nomatch hstep
  | loadWrite place => exact nomatch hstep
  | copyOut => exact nomatch hstep
  | storeRead => exact nomatch hstep

theorem Inv.loadWrite (h : Inv Capacity s) {size read write place : ℕ}
    (hconsumer : s.consumer = .loaded size read) (hwrite : s.write_[place]? = some write)
    (hplace : s.writeSeen ≤ place) :
    Inv Capacity
      { s with
        consumer := .copying read (min size (available Capacity read write)) []
        writeSeen := place } := by
  have hread := h.consumer
  rw [ConsumerSound, hconsumer] at hread
  obtain ⟨seen, hseen, rfl, hlast⟩ := h.writes.index_eq hwrite
  obtain ⟨before, hbefore, hle⟩ := h.writeSeen
  have hgrown := h.writes.le_of_place_le hplace hbefore hseen
  have hpushed := h.pushed_lt
  have hcount : s.popped.length + min size (available Capacity read (seen % Capacity)) ≤ seen := by
    rw [show read = s.popped.length % Capacity from hread, available_mod (by omega) (by omega)]
    omega
  have hwaiting : s.popped.length ≤ seen := Nat.le_trans hle hgrown
  refine { h with writeSeen := ⟨seen, hseen, hwaiting⟩, consumer := ?_ }
  exact ⟨hread, Nat.zero_le _, ⟨seen, hseen, hcount⟩, List.nil_prefix⟩

theorem Inv.copyOut (h : Inv Capacity s) {read count : ℕ} {values : List T}
    (hconsumer : s.consumer = .copying read count values) (hlength : values.length < count) :
    Inv Capacity
      { s with
        consumer := .copying read count
          (values ++ [s.data_ ((read + values.length) % Capacity)]) } := by
  have hsound := h.consumer
  rw [ConsumerSound, hconsumer] at hsound
  obtain ⟨hread, -, ⟨seen, hseen, hle⟩, hprefix⟩ := hsound
  have hlast := h.writes.le_last (List.mem_of_getElem? hseen)
  have hlt : s.popped.length + values.length < s.pushed.length := by omega
  have hdata : s.data_ ((read + values.length) % Capacity) =
      s.pushed[s.popped.length + values.length] := by
    rw [hread, Nat.mod_add_mod]
    exact h.slots _ _ (Nat.le_add_right _ _) (List.getElem?_eq_getElem hlt)
  refine { h with consumer := ⟨hread, ?_, ⟨seen, hseen, hle⟩, ?_⟩ }
  · rw [List.length_append, List.length_singleton]
    exact hlength
  · refine append_prefix hprefix ?_
    rw [List.getElem?_drop, List.getElem?_eq_getElem hlt, hdata]

theorem Inv.storeRead (h : Inv Capacity s) {read count : ℕ} {values : List T}
    (hconsumer : s.consumer = .copying read count values) (hlength : values.length = count) :
    Inv Capacity
      { s with
        read_ := s.read_ ++ [(read + count) % Capacity]
        consumer := .idle
        popped := s.popped ++ values
        readTotals := s.readTotals ++ [s.popped.length + count] } := by
  have hsound := h.consumer
  rw [ConsumerSound, hconsumer] at hsound
  obtain ⟨rfl, -, ⟨seen, hseen, hle⟩, hprefix⟩ := hsound
  have htotal : (s.popped ++ values).length = s.popped.length + count := by
    rw [List.length_append, hlength]
  refine { h with
    reads := ?_, readSeen := ?_, writeSeen := ⟨seen, hseen, ?_⟩, fifo := ?_,
    slots := fun k value hk hvalue => ?_, producer := ?_, consumer := trivial }
  · rw [htotal]
    exact h.reads.append
  · obtain ⟨before, hbefore, hlt⟩ := h.readSeen
    exact ⟨before, getElem?_append_some hbefore, hlt⟩
  · rw [htotal]
    exact hle
  · obtain ⟨rest, hrest⟩ := h.fifo
    rw [← hrest, List.drop_left] at hprefix
    rw [← hrest]
    exact (List.prefix_append_right_inj s.popped).mpr hprefix
  · rw [htotal] at hk
    exact h.slots k value (Nat.le_trans (Nat.le_add_right _ _) hk) hvalue
  · have hproducer := h.producer
    simp only [ProducerSound] at hproducer ⊢
    rcases hp : s.producer with _ | values | ⟨values, write⟩ | ⟨values, write, number, i⟩
    · trivial
    · trivial
    · rw [hp] at hproducer
      exact hproducer
    · rw [hp] at hproducer
      obtain ⟨hwrite, hi, hnumber, ⟨before, hbefore, hlt⟩, hcopied⟩ := hproducer
      exact ⟨hwrite, hi, hnumber, ⟨before, getElem?_append_some hbefore, hlt⟩, hcopied⟩

theorem Inv.stepConsumer (h : Inv Capacity s) {action : Action T}
    (hstep : stepConsumer Capacity s action = some s') : Inv Capacity s' := by
  cases action with
  | pop size =>
      simp only [SpscRingBuffer.stepConsumer] at hstep
      split at hstep
      · obtain rfl := Option.some.inj hstep
        exact { h with consumer := trivial }
      · exact nomatch hstep
  | loadOwnRead =>
      simp only [SpscRingBuffer.stepConsumer] at hstep
      split at hstep
      next size read hconsumer hlast =>
        obtain rfl := Option.some.inj hstep
        exact { h with consumer := h.reads.getLast_eq hlast }
      · exact nomatch hstep
  | loadWrite place =>
      simp only [SpscRingBuffer.stepConsumer] at hstep
      split at hstep
      next size read write hconsumer hwrite =>
        split_ifs at hstep with hplace
        obtain rfl := Option.some.inj hstep
        exact h.loadWrite hconsumer hwrite hplace
      · exact nomatch hstep
  | copyOut =>
      simp only [SpscRingBuffer.stepConsumer] at hstep
      split at hstep
      next read count values hconsumer =>
        split_ifs at hstep with hlength
        obtain rfl := Option.some.inj hstep
        exact h.copyOut hconsumer hlength
      · exact nomatch hstep
  | storeRead =>
      simp only [SpscRingBuffer.stepConsumer] at hstep
      split at hstep
      next read count values hconsumer =>
        split_ifs at hstep with hlength
        obtain rfl := Option.some.inj hstep
        exact h.storeRead hconsumer hlength
      · exact nomatch hstep
  | push values => exact nomatch hstep
  | loadOwnWrite => exact nomatch hstep
  | loadRead place => exact nomatch hstep
  | copyIn => exact nomatch hstep
  | storeWrite => exact nomatch hstep

theorem Inv.step (h : Inv Capacity s) {action : Action T}
    (hstep : SpscRingBuffer.step Capacity s action = some s') : Inv Capacity s' := by
  rcases Option.or_eq_some_iff.mp hstep with hproducer | ⟨-, hconsumer⟩
  · exact h.stepProducer hproducer
  · exact h.stepConsumer hconsumer

theorem Inv.run (h : Inv Capacity s) {actions : List (Action T)}
    (hrun : SpscRingBuffer.run Capacity s actions = some s') : Inv Capacity s' := by
  induction actions generalizing s with
  | nil =>
      obtain rfl := Option.some.inj hrun
      exact h
  | cons action actions ih =>
      obtain ⟨after, hstep, hrest⟩ := Option.bind_eq_some_iff.mp hrun
      exact ih (h.step hstep) hrest

/-- The slot that is written next is apart from the slots of the elements that wait. -/
theorem Inv.slotToWrite_ne (h : Inv Capacity s) {slot k : ℕ}
    (hslot : s.slotToWrite Capacity = some slot) (hpopped : s.popped.length ≤ k)
    (hk : k < s.pushed.length) : k % Capacity ≠ slot := by
  rw [Ring.slotToWrite] at hslot
  split at hslot
  next values write count i hproducer =>
    split_ifs at hslot with hi
    obtain rfl := Option.some.inj hslot
    exact h.slot_ne hproducer hi hpopped (Nat.lt_of_lt_of_le hk (Nat.le_add_right _ _))
  · exact nomatch hslot
  · exact nomatch hslot
  · exact nomatch hslot

end Invariant

section Runs

variable {T : Type*} [Inhabited T] {Capacity : ℕ} {s : Ring T}

/-- In every run of the two threads the popped elements are the first of the pushed ones, the
elements that wait are in their slots and no step writes one of those, and fewer elements wait
than there are slots, also by any two indices that have been stored. -/
theorem run_fifo (hcapacity : 1 < Capacity) {actions : List (Action T)}
    (hrun : run Capacity Ring.initial actions = some s) :
    s.popped <+: s.pushed ∧
      (∀ k value, s.popped.length ≤ k → s.pushed[k]? = some value →
        s.data_ (k % Capacity) = value) ∧
      (∀ slot, s.slotToWrite Capacity = some slot →
        ∀ k, s.popped.length ≤ k → k < s.pushed.length → k % Capacity ≠ slot) ∧
      s.pushed.length - s.popped.length ≤ Capacity - 1 ∧
      ∀ read ∈ s.read_, ∀ write ∈ s.write_, available Capacity read write ≤ Capacity - 1 := by
  have h := (inv_initial hcapacity).run hrun
  have hlt := h.pushed_lt
  refine ⟨h.fifo, h.slots, fun slot hslot k hpopped hk => h.slotToWrite_ne hslot hpopped hk,
    by omega, fun read hread write hwrite => ?_⟩
  have hmod : ∀ indices totals : List ℕ, indices = totals.map (· % Capacity) →
      ∀ index ∈ indices, index < Capacity := by
    rintro _ totals rfl index hindex
    obtain ⟨total, -, rfl⟩ := List.mem_map.mp hindex
    exact Nat.mod_lt _ (by omega)
  have := available_lt (hmod _ _ h.reads.indices read hread) (hmod _ _ h.writes.indices write hwrite)
  omega

/-- Two slots, and a push of two elements of which one finds room. -/
theorem run_fifo_two :
    ∃ s : Ring ℕ, run 2 Ring.initial
        [.push [5, 6], .loadOwnWrite, .pop 2, .loadRead 0, .copyIn, .loadOwnRead, .storeWrite,
          .loadWrite 1, .copyOut, .storeRead] = some s ∧ s.popped = [5] ∧ s.popped <+: s.pushed := by
  obtain ⟨s, hrun, hpopped⟩ := Option.map_eq_some_iff.mp
    (show (run 2 (Ring.initial : Ring ℕ)
        [.push [5, 6], .loadOwnWrite, .pop 2, .loadRead 0, .copyIn, .loadOwnRead, .storeWrite,
          .loadWrite 1, .copyOut, .storeRead]).map Ring.popped = some [5] by decide)
  exact ⟨s, hrun, hpopped, (run_fifo (by decide) hrun).1⟩

end Runs

end Wiicompiled.Voice.SpscRingBuffer
