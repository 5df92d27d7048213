import ArenaScheme.Proofs.Collection.Planning
import ArenaScheme.Proofs.Matching

/-! The last two passes of a collection. Relocation redirects references one address after the
other; the addresses are apart from each other and from all headers, so each one sees the
forwarding fields that planning left. Sliding moves a record onto bytes that belong to records
before it, so that everything behind is still as it was. -/

namespace ArenaScheme

variable {rs : List Nat} {m o : Memory} {r start top : Nat}

namespace Memory

/-- What a reference becomes in the collection that is running. -/
def redirected (m : Memory) (r : Nat) : Nat := if r = absent then absent else m.forward r

theorem redirected_congr {n : Memory} (h : r = absent ∨ n.forward r = m.forward r) :
    n.redirected r = m.redirected r := by
  unfold redirected
  rcases h with h | h
  · rw [if_pos h, if_pos h]
  · rw [h]

/-- Every address is redirected, and no other byte changes. -/
theorem relocateFields_eq (addresses : List Nat) (m : Memory)
    (hapart : addresses.Pairwise fun a b => a + 4 ≤ b)
    (hheader : ∀ a ∈ addresses, ∀ r ∈ rs, a + 4 ≤ r ∨ r + 5 ≤ a)
    (hsize : ∀ a ∈ addresses, a + 4 ≤ m.size)
    (hword : ∀ a ∈ addresses, m.word a = absent ∨
      (m.word a ∈ rs ∧ m.word a < top ∧ m.isMarked (m.word a) = true)) :
    ∃ n, relocateFields top addresses m = (none, n) ∧ n.size = m.size ∧
      (∀ a ∈ addresses, n.word a = m.redirected (m.word a)) ∧
      ∀ i, (∀ a ∈ addresses, i < a ∨ a + 4 ≤ i) → n.byte i = m.byte i := by
  induction addresses generalizing m with
  | nil => exact ⟨m, rfl, rfl, by simp, fun _ _ => rfl⟩
  | cons a addresses ih =>
    obtain ⟨hfirst, hrest⟩ := List.pairwise_cons.mp hapart
    have htail := fun b (hb : b ∈ addresses) => List.mem_cons_of_mem a hb
    rw [relocateFields]
    by_cases habs : m.word a = absent
    · rw [if_pos habs]
      obtain ⟨n, heq, hn, hdone, hother⟩ := ih m hrest (fun b hb => hheader b (htail b hb))
        (fun b hb => hsize b (htail b hb)) fun b hb => hword b (htail b hb)
      refine ⟨n, heq, hn, ?_, fun i hi => hother i fun b hb => hi b (htail b hb)⟩
      intro b hb
      rcases List.mem_cons.mp hb with rfl | hb'
      · have hsame : n.word b = m.word b := word_congr fun k hk => hother _ fun c hc => by
          have := hfirst c hc
          omega
        rw [hsame, redirected, if_pos habs, habs]
      · exact hdone b hb'
    · obtain ⟨_, hlt, hmark⟩ := (hword a List.mem_cons_self).resolve_left habs
      have hcan : m.canForward top (m.word a) = true := by simp [canForward, hlt, hmark]
      rw [if_neg habs, if_pos hcan]
      have hhead : ∀ r ∈ rs,
          (m.setWord a (m.forward (m.word a))).isMarked r = m.isMarked r ∧
          (m.setWord a (m.forward (m.word a))).forward r = m.forward r := by
        intro r hr
        have hsep := hheader a List.mem_cons_self r hr
        exact ⟨isMarked_eq_of_byte (byte_setWord_of_outside _ _ _ _ (by omega)),
          word_setWord_of_disjoint _ _ _ _ (by omega)⟩
      have hkeep : ∀ b ∈ addresses,
          (m.setWord a (m.forward (m.word a))).word b = m.word b := fun b hb =>
        word_setWord_of_disjoint _ _ _ _ (Or.inr (hfirst b hb))
      obtain ⟨n, heq, hn, hdone, hother⟩ := ih _ hrest (fun b hb => hheader b (htail b hb))
        (fun b hb => by rw [size_setWord]; exact hsize b (htail b hb)) fun b hb => by
          rw [hkeep b hb]
          rcases hword b (htail b hb) with h | ⟨h1, h2, h3⟩
          · exact Or.inl h
          · exact Or.inr ⟨h1, h2, by rw [(hhead _ h1).1, h3]⟩
      refine ⟨n, heq, by rw [hn, size_setWord], ?_, ?_⟩
      · intro b hb
        rcases List.mem_cons.mp hb with rfl | hb'
        · have hsame : n.word b = (m.setWord b (m.forward (m.word b))).word b :=
            word_congr fun k hk => hother _ fun c hc => by
              have := hfirst c hc
              omega
          have hself : (m.setWord b (m.forward (m.word b))).word b = m.forward (m.word b) :=
            word_setWord_of_lt _ _ _ (hsize b List.mem_cons_self) (word_lt _ _)
          rw [hsame, hself, redirected, if_neg habs]
        · rw [hdone b hb', hkeep b hb']
          refine redirected_congr ?_
          rcases hword b (htail b hb') with h | ⟨h1, _, _⟩
          · exact Or.inl h
          · exact Or.inr (hhead _ h1).2
      · intro i hi
        have hout := hi a List.mem_cons_self
        rw [hother i fun b hb => hi b (htail b hb)]
        exact byte_setWord_of_outside _ _ _ _ (by omega)

theorem pairwise_referenceFields (m : Memory) (r : Nat) :
    (m.referenceFields r).Pairwise (· < ·) := by
  unfold referenceFields
  cases m.kind r with
  | vector => exact List.pairwise_lt_range'
  | _ => simp

/-- The addresses of the references of some records, in order. -/
theorem pairwise_addresses (ht : Tiled m top start rs) (p : Nat → Bool) :
    ((rs.filter p).flatMap fun r => (m.referenceFields r).map (fieldAddress r)).Pairwise
      fun a b => a + 4 ≤ b := by
  rw [List.pairwise_flatMap]
  refine ⟨fun r _ => ?_, ?_⟩
  · rw [List.pairwise_map]
    refine (m.pairwise_referenceFields r).imp fun hlt => ?_
    simp only [fieldAddress_eq]
    omega
  · refine (ht.pairwise_lt.filter p).imp_of_mem fun {q r} hq hr hlt a ha b hb => ?_
    obtain ⟨k, hk, rfl⟩ := List.mem_map.mp ha
    obtain ⟨l, _, rfl⟩ := List.mem_map.mp hb
    have hend := ht.end_le (List.mem_filter.mp hq).1 (List.mem_filter.mp hr).1 hlt
    have hin := field_end_le_extent hk
    simp only [fieldAddress_eq]
    omega

/-- One step of sliding. -/
def slideStep (m : Memory) (r : Nat) : Memory :=
  if m.isMarked r then (m.unmark r).move r (m.forward r) (m.recordSize r) else m

theorem slide_eq (m : Memory) (rs : List Nat) : m.slide rs.toArray = rs.foldl slideStep m := by
  simp only [slide, List.foldl_toArray']
  rfl

/-- A record that is moved down arrives whole, and nothing behind it changes. -/
theorem byte_slideStep {t : Nat} (hm : m.isMarked r = true) (htr : t ≤ r) (hfwd : m.forward r = t)
    (hend : r + m.extent r ≤ m.size) (hsize : m.extent r < 4294967296) (i : Nat)
    (hi : i < t + m.extent r ∨ r + m.extent r ≤ i) :
    (m.slideStep r).byte i =
      if t ≤ i ∧ i < t + m.extent r then (m.unmark r).byte (r + (i - t)) else m.byte i := by
  rw [slideStep, if_pos hm, recordSize_eq m r hsize, hfwd,
    byte_move _ _ _ _ _ htr (by rw [unmark, size_setByte]; exact hend)]
  have hpos := five_le_extent m r
  split
  · rfl
  · rw [unmark, byte_setByte_of_ne _ _ _ _ (by omega)]

theorem size_slideStep (m : Memory) (r : Nat) : (m.slideStep r).size = m.size := by
  unfold slideStep
  split
  · rw [size_move, unmark, size_setByte]
  · rfl

/-- Each marked record arrives at its place without its mark, and what stands before the first
place or behind the last record is left alone. -/
theorem foldl_slideStep (htop : top < 4294967296) (ht : Tiled m top start rs) (hsize : top ≤ m.size)
    (t : Nat) (hts : t ≤ start)
    (hfwd : ∀ p ∈ rs, m.isMarked p = true → m.forward p = t + m.placeIn rs p) :
    (rs.foldl slideStep m).size = m.size ∧
      (∀ i, i < t ∨ top ≤ i → (rs.foldl slideStep m).byte i = m.byte i) ∧
      ∀ p ∈ rs, m.isMarked p = true → ∀ i < m.extent p,
        (rs.foldl slideStep m).byte (t + m.placeIn rs p + i) = (m.unmark p).byte (p + i) := by
  induction rs generalizing m start t with
  | nil => exact ⟨rfl, fun _ _ => rfl, by simp⟩
  | cons r rs ih =>
    cases ht with
    | record hrest =>
      have hpos := five_le_extent m r
      have hle := hrest.le
      rw [List.foldl_cons]
      cases hm : m.isMarked r with
      | false =>
        have hplace : ∀ p ∈ rs, m.placeIn (r :: rs) p = m.placeIn rs p := by
          intro p hp
          rw [hrest.placeIn_cons hp, hm]
          simp
        rw [show m.slideStep r = m by rw [slideStep, if_neg (by simp [hm])]]
        obtain ⟨h1, h2, h3⟩ := ih hrest hsize t (by omega) fun p hp hpm => by
          rw [← hplace p hp]
          exact hfwd p (List.mem_cons_of_mem _ hp) hpm
        refine ⟨h1, h2, fun p hp hpm i hi => ?_⟩
        rcases List.mem_cons.mp hp with rfl | hp'
        · rw [hm] at hpm
          cases hpm
        · rw [hplace p hp']
          exact h3 p hp' hpm i hi
      | true =>
        have hzero : m.placeIn (r :: rs) r = 0 := by rw [placeIn, if_pos rfl]
        have hplace : ∀ p ∈ rs, m.placeIn (r :: rs) p = m.extent r + m.placeIn rs p := by
          intro p hp
          rw [hrest.placeIn_cons hp, hm]
          simp
        have hstep := byte_slideStep hm hts
          (by rw [hfwd r List.mem_cons_self hm, hzero, Nat.add_zero]) (by omega) (by omega)
        have hsame : SameFrom (r + m.extent r) m (m.slideStep r) := by
          intro i hi
          rw [hstep i (Or.inr hi), if_neg (by omega)]
        have hlater : ∀ p ∈ rs, (m.slideStep r).isMarked p = m.isMarked p ∧
            (m.slideStep r).extent p = m.extent p := fun p hp =>
          have hlow := (hrest.bounds hp).1
          ⟨hsame.isMarked hlow, hsame.extent hlow⟩
        obtain ⟨h1, h2, h3⟩ := ih (hsame.tiled hrest) (by rw [size_slideStep]; exact hsize)
          (t + m.extent r) (by omega) fun p hp hpm => by
            rw [hsame.forward (hrest.bounds hp).1, placeIn_congr p hlater,
              hfwd p (List.mem_cons_of_mem _ hp) (by rw [← (hlater p hp).1, hpm]), hplace p hp,
              Nat.add_assoc]
        refine ⟨by rw [h1, size_slideStep], ?_, ?_⟩
        · intro i hi
          rw [h2 i (by omega), hstep i (by omega), if_neg (by omega)]
        · intro p hp hpm i hi
          rcases List.mem_cons.mp hp with rfl | hp'
          · rw [hzero, Nat.add_zero, h2 _ (Or.inl (by omega)), hstep _ (Or.inl (by omega)),
              if_pos (by omega), Nat.add_sub_cancel_left]
          · obtain ⟨hlow, hpend⟩ := hrest.bounds hp'
            have hmoved := h3 p hp' (by rw [(hlater p hp').1, hpm]) i
              (by rw [(hlater p hp').2]; exact hi)
            rw [placeIn_congr p hlater, Nat.add_assoc t] at hmoved
            rw [hplace p hp', hmoved]
            have hbyte := hsame p hlow
            unfold unmark
            by_cases hi0 : i = 0
            · subst hi0
              rw [Nat.add_zero, byte_setByte_self _ _ _ (by rw [size_slideStep]; omega),
                byte_setByte_self _ _ _ (by omega), hbyte]
            · rw [byte_setByte_of_ne _ _ _ _ (by omega), byte_setByte_of_ne _ _ _ _ (by omega),
                hsame _ (by omega)]

variable {m n : Memory} {top : Nat} {rs : List Nat}

/-- Planning leaves headers and contents alone. -/
theorem plan_spec (ht : Tiled m top 0 rs) (htop : top < 4294967296) (hsize : top ≤ m.size) :
    ∃ n, m.plan rs.toArray = (m.markedBytes rs, n) ∧ n.size = m.size ∧
      (∀ p ∈ rs, m.isMarked p = true → n.forward p = m.placeIn rs p) ∧
      (∀ p ∈ rs, n.byte p = m.byte p) ∧ (∀ p ∈ rs, SameBody m p n p) ∧
      ∀ i, top ≤ i → n.byte i = m.byte i := by
  obtain ⟨n, heq, hn, hforward, hother⟩ := foldl_planStep htop ht hsize 0 (Nat.le_refl 0)
  have hbyte : ∀ p ∈ rs, ∀ i < m.extent p, i = 0 ∨ 5 ≤ i → n.byte (p + i) = m.byte (p + i) := by
    intro p hp i hi hheader
    refine hother _ fun q hq _ => ?_
    have hpos := five_le_extent m q
    by_cases hpq : p = q
    · omega
    · have := ht.apart hp hq hpq
      omega
  have hfirst : ∀ p ∈ rs, n.byte p = m.byte p := fun p hp =>
    hbyte p hp 0 (by have := five_le_extent m p; omega) (Or.inl rfl)
  refine ⟨n, ?_, hn, ?_, hfirst, fun p hp => ⟨kind_eq_of_byte (hfirst p hp), ?_⟩,
    fun i hi => hother i fun p hp _ => Or.inr ?_⟩
  · rw [plan_eq, heq, Nat.zero_add]
  · intro p hp hm
    rw [hforward p hp hm, Nat.zero_add]
  · exact fun i hlow hlt => hbyte p hp i hlt (Or.inr hlow)
  · have hend := (ht.bounds hp).2
    have hpos := five_le_extent m p
    omega

/-- Relocation redirects the references of marked records and leaves everything else alone. -/
theorem relocate_spec (ht : Tiled n top 0 rs) (hsize : top ≤ n.size)
    (href : ∀ r ∈ rs, n.isMarked r = true → ∀ k ∈ n.referenceFields r,
      n.field r k = absent ∨ (n.field r k ∈ rs ∧ n.isMarked (n.field r k) = true)) :
    ∃ o, relocateFields top (n.liveAddresses rs.toArray) n = (none, o) ∧ o.size = n.size ∧
      (∀ r ∈ rs, n.isMarked r = true → ∀ k ∈ n.referenceFields r,
        o.field r k = n.redirected (n.field r k)) ∧
      (∀ r ∈ rs, ∀ i < n.extent r, (n.isMarked r = true → ¬ n.InReference r i) →
        o.byte (r + i) = n.byte (r + i)) ∧
      ∀ i, top ≤ i → o.byte i = n.byte i := by
  have haddresses : n.liveAddresses rs.toArray =
      (rs.filter n.isMarked).flatMap fun r => (n.referenceFields r).map (fieldAddress r) := by
    rw [liveAddresses, List.flatMap_def, List.flatMap_def]
    refine congrArg List.flatten (List.map_congr_left fun r hr => mem_referenceAddresses ?_)
    have := (ht.bounds (List.mem_filter.mp hr).1).2
    omega
  have hmem : ∀ a ∈ n.liveAddresses rs.toArray, ∃ r ∈ rs, n.isMarked r = true ∧
      ∃ k ∈ n.referenceFields r, a = fieldAddress r k := by
    intro a ha
    rw [haddresses, List.mem_flatMap] at ha
    obtain ⟨r, hr, ha⟩ := ha
    obtain ⟨k, hk, rfl⟩ := List.mem_map.mp ha
    exact ⟨r, (List.mem_filter.mp hr).1, (List.mem_filter.mp hr).2, k, hk, rfl⟩
  have hheader : ∀ a ∈ n.liveAddresses rs.toArray, ∀ r ∈ rs, a + 4 ≤ r ∨ r + 5 ≤ a := by
    intro a ha r hr
    obtain ⟨q, hq, -, k, hk, rfl⟩ := hmem a ha
    have hend := field_end_le_extent hk
    have hpos := five_le_extent n r
    rw [fieldAddress_eq]
    by_cases hqr : q = r
    · omega
    · have := ht.apart hq hr hqr
      omega
  have hinside : ∀ a ∈ n.liveAddresses rs.toArray, a + 4 ≤ n.size := by
    intro a ha
    obtain ⟨r, hr, -, k, hk, rfl⟩ := hmem a ha
    have hend := field_end_le_extent hk
    have := (ht.bounds hr).2
    rw [fieldAddress_eq]
    omega
  have hword : ∀ a ∈ n.liveAddresses rs.toArray, n.word a = absent ∨
      (n.word a ∈ rs ∧ n.word a < top ∧ n.isMarked (n.word a) = true) := by
    intro a ha
    obtain ⟨r, hr, hm, k, hk, rfl⟩ := hmem a ha
    exact (href r hr hm k hk).imp_right fun h => ⟨h.1, ht.lt_top h.1, h.2⟩
  obtain ⟨o, heq, ho, hdone, hother⟩ := relocateFields_eq _ n
    (haddresses ▸ pairwise_addresses ht _) hheader hinside hword
  refine ⟨o, heq, ho, fun r hr hm k hk => hdone _ ?_, fun r hr i hi hout => hother _ ?_,
    fun i hi => hother i fun a ha => Or.inr ?_⟩
  · rw [haddresses, List.mem_flatMap]
    exact ⟨r, List.mem_filter.mpr ⟨hr, hm⟩, List.mem_map.mpr ⟨k, hk, rfl⟩⟩
  · intro a ha
    obtain ⟨q, hq, hm, k, hk, rfl⟩ := hmem a ha
    have hend := field_end_le_extent hk
    rw [fieldAddress_eq]
    by_cases hrq : r = q
    · subst hrq
      have : ¬ (5 + 4 * k ≤ i ∧ i < 9 + 4 * k) := fun h => hout hm ⟨k, hk, h⟩
      omega
    · have := ht.apart hr hq hrq
      omega
  · obtain ⟨q, hq, -, k, hk, rfl⟩ := hmem a ha
    have hend := field_end_le_extent hk
    have := (ht.bounds hq).2
    rw [fieldAddress_eq]
    omega

/-- Whether the marked record at `r` goes to `s`. -/
def Placed (m : Memory) (rs : List Nat) (r s : Nat) : Prop :=
  r ∈ rs ∧ m.isMarked r = true ∧ m.placeIn rs r = s

theorem byte_unmark (m : Memory) {i : Nat} (hr : r < m.size) (hi : 0 < i) :
    ((m.unmark r).byte r).toNat = (m.byte r).toNat % 128 ∧
      (m.unmark r).byte (r + i) = m.byte (r + i) := by
  rw [unmark, byte_setByte_self _ _ _ hr, byte_setByte_of_ne _ _ _ _ (by omega), UInt8.toNat_mod]
  exact ⟨rfl, rfl⟩

/-- What planning and relocation have made of the marked memory `m`. -/
structure Relocated (top : Nat) (rs : List Nat) (m o : Memory) : Prop where
  size : o.size = m.size
  header : ∀ p ∈ rs, o.byte p = m.byte p
  forward : ∀ p ∈ rs, m.isMarked p = true → o.forward p = m.placeIn rs p
  payload : ∀ p ∈ rs, ∀ i, 5 ≤ i → i < m.extent p → ¬ m.InReference p i →
    o.byte (p + i) = m.byte (p + i)
  reference : ∀ p ∈ rs, m.isMarked p = true → ∀ k ∈ m.referenceFields p,
    Linked (m.Placed rs) (m.field p k) (o.field p k)
  beyond : ∀ i, top ≤ i → o.byte i = m.byte i

theorem Relocated.same {p : Nat} (h : Relocated top rs m o) (hp : p ∈ rs) :
    o.isMarked p = m.isMarked p ∧ o.extent p = m.extent p := by
  have hmatch : Matches (fun _ _ => True) m p o p :=
    ⟨kind_eq_of_byte (h.header p hp), isPinned_eq_of_byte (h.header p hp), h.payload p hp,
      fun _ _ => Or.inr trivial⟩
  exact ⟨isMarked_eq_of_byte (h.header p hp), hmatch.extent⟩

/-- Where marks are closed under references, relocation finds nothing that it cannot redirect. -/
theorem exists_relocated (ht : Tiled m top 0 rs) (htop : top < 4294967296) (hsize : top ≤ m.size)
    (href : ∀ r ∈ rs, m.isMarked r = true → ∀ k ∈ m.referenceFields r,
      m.field r k = absent ∨ (m.field r k ∈ rs ∧ m.isMarked (m.field r k) = true)) :
    ∃ n o, m.plan rs.toArray = (m.markedBytes rs, n) ∧
      relocateFields top (n.liveAddresses rs.toArray) n = (none, o) ∧ Relocated top rs m o := by
  obtain ⟨n, hplan, hn, hforward, hfirst, hbody, hpast⟩ := plan_spec ht htop hsize
  have hmarked : ∀ p ∈ rs, n.isMarked p = m.isMarked p := fun p hp =>
    isMarked_eq_of_byte (hfirst p hp)
  have htn : Tiled n top 0 rs := ht.congr fun p hp => (hbody p hp).extent
  obtain ⟨o, hrelocate, ho, hredirect, hkeep, hbeyond⟩ :=
      relocate_spec htn (by omega) fun r hr hm k hk => by
    rw [(hbody r hr).referenceFields] at hk
    rw [(hbody r hr).reference hk]
    exact (href r hr (by rw [← hmarked r hr, hm]) k hk).imp_right fun h =>
      ⟨h.1, by rw [hmarked _ h.1, h.2]⟩
  -- Bytes of the header are in no reference.
  have hheader : ∀ p ∈ rs, ∀ i < 5, o.byte (p + i) = n.byte (p + i) := by
    intro p hp i hi
    have hpos := five_le_extent n p
    refine hkeep p hp i (by omega) fun _ => ?_
    rintro ⟨k, -, hlow, -⟩
    omega
  refine ⟨n, o, hplan, hrelocate, by rw [ho, hn], fun p hp => ?_, fun p hp hm => ?_,
    fun p hp i hlow hlt hout => ?_, fun p hp hm k hk => ?_,
    fun i hi => (hbeyond i hi).trans (hpast i hi)⟩
  · exact (hheader p hp 0 (by omega)).trans (hfirst p hp)
  · rw [← hforward p hp hm]
    exact word_congr fun k hk => by
      rw [Nat.add_assoc]
      exact hheader p hp _ (by omega)
  · have hout' : ¬ n.InReference p i := by
      unfold InReference
      rw [(hbody p hp).referenceFields]
      exact hout
    rw [hkeep p hp i (by rw [(hbody p hp).extent]; exact hlt) fun _ => hout',
      (hbody p hp).body i hlow hlt]
  · rw [hredirect p hp (by rw [hmarked p hp, hm]) k (by rw [(hbody p hp).referenceFields]; exact hk),
      (hbody p hp).reference hk, redirected]
    by_cases habs : m.field p k = absent
    · exact Or.inl ⟨habs, if_pos habs⟩
    · obtain ⟨hmem, hm'⟩ := (href p hp hm k hk).resolve_left habs
      rw [if_neg habs, hforward _ hmem hm']
      exact Or.inr ⟨hmem, hm', rfl⟩

/-- After sliding, the bytes of each marked record stand at its place, and those behind all records
are as before. -/
theorem Relocated.byte_slide (h : Relocated top rs m o) (ht : Tiled m top 0 rs)
    (htop : top < 4294967296) (hsize : top ≤ m.size) :
    (o.slide rs.toArray).size = m.size ∧
      (∀ i, top ≤ i → (o.slide rs.toArray).byte i = m.byte i) ∧
      ∀ p ∈ rs, m.isMarked p = true → ∀ i < m.extent p,
        (o.slide rs.toArray).byte (m.placeIn rs p + i) = (o.unmark p).byte (p + i) := by
  have hsame := fun p hp => h.same (p := p) hp
  obtain ⟨hsize', hother, hmoved⟩ := foldl_slideStep htop (ht.congr fun p hp => (hsame p hp).2)
    (by rw [h.size]; exact hsize) 0 (Nat.le_refl 0) fun p hp hm => by
      rw [Nat.zero_add, placeIn_congr p hsame]
      exact h.forward p hp (by rw [← (hsame p hp).1, hm])
  rw [← slide_eq] at hsize' hother hmoved
  refine ⟨by rw [hsize', h.size], fun i hi => ?_, fun p hp hm i hi => ?_⟩
  · rw [hother i (Or.inr hi), h.beyond i hi]
  · have := hmoved p hp (by rw [(hsame p hp).1, hm]) i (by rw [(hsame p hp).2]; exact hi)
    rwa [Nat.zero_add, placeIn_congr p hsame] at this

/-- After sliding, each marked record stands at its place, without its mark. -/
theorem Relocated.slide (h : Relocated top rs m o) (ht : Tiled m top 0 rs) (htop : top < 4294967296)
    (hsize : top ≤ m.size) :
    (o.slide rs.toArray).size = m.size ∧
      ∀ p ∈ rs, m.isMarked p = true →
        (o.slide rs.toArray).isMarked (m.placeIn rs p) = false ∧
        Matches (m.Placed rs) m p (o.slide rs.toArray) (m.placeIn rs p) := by
  obtain ⟨hsize', -, hmoved⟩ := h.byte_slide ht htop hsize
  refine ⟨hsize', fun p hp hm => ?_⟩
  have hin : p < o.size := by
    have := ht.lt_top hp
    rw [h.size]
    omega
  have hbytes := hmoved p hp hm
  have hhead : ((o.slide rs.toArray).byte (m.placeIn rs p)).toNat = (m.byte p).toNat % 128 := by
    have hpos := five_le_extent m p
    rw [← h.header p hp, ← (byte_unmark o hin Nat.one_pos).1]
    exact congrArg UInt8.toNat (hbytes 0 (by omega))
  have hrest : ∀ i, 5 ≤ i → i < m.extent p →
      (o.slide rs.toArray).byte (m.placeIn rs p + i) = o.byte (p + i) := fun i hlow hlt => by
    rw [hbytes i hlt, (byte_unmark o hin (by omega)).2]
  refine ⟨(not_isMarked_iff _ _).mpr (by omega), ⟨?_, ?_, fun i hlow hlt hout => ?_, fun k hk => ?_⟩⟩
  · rw [kind, kind, hhead, show (m.byte p).toNat % 128 % 16 = (m.byte p).toNat % 16 by omega]
  · rw [isPinned, isPinned, hhead,
      show (m.byte p).toNat % 128 / 64 % 2 = (m.byte p).toNat / 64 % 2 by omega]
  · rw [hrest i hlow hlt, h.payload p hp i hlow hlt hout]
  · have hend := field_end_le_extent hk
    have hfield : (o.slide rs.toArray).field (m.placeIn rs p) k = o.field p k :=
      word_congr fun i hi => by
        have := hrest (5 + 4 * k + i) (by omega) (by omega)
        simpa only [fieldAddress_eq, Nat.add_assoc] using this
    rw [hfield]
    exact h.reference p hp hm k hk

end Memory

end ArenaScheme
