import ArenaScheme.Primitive.Arithmetic
import ArenaScheme.Proofs.AllocationPolicy
import ArenaScheme.Proofs.BuiltForms
import ArenaScheme.Proofs.Constructing
import ArenaScheme.Proofs.Numerals

/-! Integers as text and back. The procedures that write an integer in a base and read one make one
record, and fail only if there is no room for it. -/

namespace ArenaScheme

open Memory Heap

variable {h : Heap} {i : Int} {bytes r : Nat}

namespace Number

/-- How an integer is written in a base: a minus sign if it is negative, then the digits of its
magnitude, in lower case and without leading zeros. -/
def IsNumeral (base : Nat) (i : Int) (text : List Char) : Prop :=
  ∃ digits, text = (if i < 0 then ['-'] else []) ++ digits ∧ Denotes base digits i.natAbs ∧
    (∀ c ∈ digits, c.isUpper = false) ∧ (digits.head? = some '0' → digits = ['0'])

variable {base n : Nat} {i : Int} {text : List Char}

theorem IsNumeral.isInteger (h : IsNumeral base i text) : IsInteger base text i := by
  obtain ⟨digits, rfl, hdigits, -⟩ := h
  by_cases hneg : i < 0
  · rw [if_pos hneg]
    exact ⟨_, _, digits, _, .minus, hdigits, rfl, by rw [if_pos rfl]; omega⟩
  · rw [if_neg hneg]
    exact ⟨_, _, digits, _, .none, hdigits, rfl, by rw [if_neg Bool.false_ne_true]; omega⟩

theorem isDigit_digitChar {d : Nat} (hbase : base ≤ 16) (hd : d < base) :
    IsDigit base d.digitChar d := by
  have hall : ∀ d < 16, "0123456789abcdef".toList[d]? = some d.digitChar := by decide
  exact ⟨hd, .inl (hall d (by omega))⟩

/-- Digits are added at the end, and the first one is never a zero. -/
theorem toDigits_spec (hlow : 1 < base) (hbase : base ≤ 16) (n : Nat) :
    Denotes base (Nat.toDigits base n) n ∧ (∀ c ∈ Nat.toDigits base n, c.isUpper = false) ∧
      (0 < n → (Nat.toDigits base n).head? ≠ some '0') := by
  have hlower : ∀ d < 16, d.digitChar.isUpper = false := by decide
  have hzero : ∀ d < 16, 0 < d → some d.digitChar ≠ some '0' := by decide
  induction n using Nat.strongRecOn with
  | ind n ih =>
    rw [Nat.toDigits_eq_if hlow]
    split
    · rename_i hn
      refine ⟨.digit (isDigit_digitChar hbase hn), fun c hc => ?_, hzero n (by omega)⟩
      rw [List.mem_singleton.mp hc]
      exact hlower n (by omega)
    · rename_i hn
      have hmod : n % base < base := Nat.mod_lt n (by omega)
      obtain ⟨hdenotes, hcase, hhead⟩ := ih (n / base) (Nat.div_lt_self (by omega) hlow)
      refine ⟨?_, fun c hc => ?_, fun _ => ?_⟩
      · have happend := hdenotes.append (isDigit_digitChar hbase hmod)
        rwa [Nat.div_add_mod] at happend
      · rcases List.mem_append.mp hc with hc | hc
        · exact hcase c hc
        · rw [List.mem_singleton.mp hc]
          exact hlower _ (by omega)
      · rw [List.head?_append_of_ne_nil _ Nat.toDigits_ne_nil]
        exact hhead (Nat.div_pos (by omega) (by omega))

theorem isNumeral_textIn (hlow : 1 < base) (hbase : base ≤ 16) (i : Int) :
    IsNumeral base i (textIn base i).toList := by
  obtain ⟨hdenotes, hcase, hhead⟩ := toDigits_spec hlow hbase i.natAbs
  refine ⟨Nat.toDigits base i.natAbs, ?_, hdenotes, hcase, fun hzero => ?_⟩
  · rw [textIn, String.toList_append, String.toList_ofList]
    split <;> rfl
  · have hi : i.natAbs = 0 := by
      by_contra hne
      exact hhead (Nat.pos_of_ne_zero hne) hzero
    rw [hi, Nat.toDigits_of_lt_base (by omega)]
    rfl

/-- There are at most 64 digits. -/
theorem length_textIn_le (hlow : 1 < base) (hfits : fitsWord i = true) :
    (textIn base i).toList.length ≤ 65 := by
  have habs : i.natAbs < base ^ 64 := by
    obtain ⟨hi, hi'⟩ := fitsWord_iff.mp hfits
    calc i.natAbs < 2 ^ 64 := by omega
      _ ≤ base ^ 64 := Nat.pow_le_pow_left hlow 64
  have hlength := (Nat.length_toDigits_le_iff hlow (by decide : 0 < 64)).mpr habs
  rw [textIn, String.toList_append, String.toList_ofList, List.length_append]
  have hsign : (if i < 0 then "-" else "").toList.length ≤ 1 := by split <;> decide
  omega

end Number

theorem fitsWord_of_object (hr : h.object r = .integer i) : fitsWord i = true := by
  unfold Heap.object at hr
  cases hk : h.kind r <;> rw [hk] at hr <;> cases hr
  have hlow := word_lt h.memory (fieldAddress r 0)
  have hhigh := word_lt h.memory (fieldAddress r 1)
  have hpayload : h.payload r = h.memory.word (fieldAddress r 0) +
      4294967296 * h.memory.word (fieldAddress r 1) := rfl
  rw [Number.fitsWord_iff, signedOfWord]
  split <;> omega

/-- Whether a record of the given size can be made: in the largest heap there is room for it next
to what is live. -/
def Heap.HasRoom (h : Heap) (bytes : Nat) : Prop :=
  (h.liveRecords.map h.memory.recordSize).sum + bytes ≤ maxSize

theorem Heap.hasRoom_iff :
    h.HasRoom bytes ↔ h.liveBytes (#v[] : Vector Ref 0) + bytes ≤ maxSize := by
  simp [HasRoom, liveBytes, withKept]

theorem Heap.WellFormed.hasRoom (wf : h.WellFormed) (hroom : h.top + bytes ≤ maxSize) :
    h.HasRoom bytes := by
  obtain ⟨m, o, g, hc⟩ := HeapM.exists_phases wf
  have htop := (hc.relocation wf).1.top_le
  rw [hc.top_eq_sum wf] at htop
  exact Nat.le_trans (Nat.add_le_add_right htop _) hroom

namespace Machine

/-- What a procedure ends with that makes one record: a value, if there is room for it, and the
fault of a heap that is full, if there is not. -/
def Makes (size : UInt32) (m : Machine) (bytes : Nat) (result : EStateM.Result Stop Machine Step)
    (shows : Heap → Ref → Prop) : Prop :=
  (m.heap.HasRoom bytes → ∃ r m', result = .ok (.done r) m' ∧ Reachable size m' ∧
    r ∈ m'.heap.records ∧ shows m'.heap r) ∧
  (¬ m.heap.HasRoom bytes → ∃ m', result = .error (.fault (.heapExhausted bytes)) m')

variable {size : UInt32} {m : Machine}

theorem Reachable.makes (hm : Reachable size m) {c : Construction} {kind : Kind} {words : List Nat}
    (hc : c.Valid m.heap) (hplain : c.frames = [] ∧ c.op.captured = [])
    (hrun : c.run = HeapM.room bytes #v[] >>= fun _ => HeapM.put kind bytes words []) :
    Makes size m bytes ((Step.done <$> Eval.onHeap c.run) m) fun h r =>
      ∃ place, h.content r = (c.content m.heap).map place := by
  have hs := hm.intact.sound
  have hmade : ∀ {r g}, c.run m.heap = .ok r g →
      ∃ r m', (Step.done <$> Eval.onHeap c.run) m = .ok (.done r) m' ∧ Reachable size m' ∧
        r ∈ m'.heap.records ∧ ∃ place, m'.heap.content r = (c.content m.heap).map place := by
    intro r g hok
    obtain ⟨hreach, hmem, -, place, -, hcontent⟩ := hm.construct hc hplain hok
    refine ⟨r, _, ?_, hreach, hmem, place, hcontent⟩
    simp only [Functor.map, EStateM.map, Eval.onHeap, hok]
  have hroom := HeapM.room_made bytes hs.wf hs.capacity_pos HeapM.mem_empty
  generalize hresult : HeapM.room bytes #v[] m.heap = result at hroom
  have hok := congrFun hrun m.heap
  cases hroom with
  | free hfit =>
    rw [HeapM.bind_ok hresult] at hok
    exact ⟨fun _ => hmade hok, fun hno =>
      absurd (hs.wf.hasRoom (Nat.le_trans hfit hs.wf.capacity_le)) hno⟩
  | grown _ hlive =>
    rw [HeapM.bind_ok hresult] at hok
    exact ⟨fun _ => hmade hok, fun hno => absurd (hasRoom_iff.mpr hlive) hno⟩
  | @exhausted k _ hlive =>
    rw [HeapM.bind_error hresult] at hok
    refine ⟨fun hyes => absurd (hasRoom_iff.mp hyes) (Nat.not_le_of_lt hlive), fun _ =>
      ⟨{ m with heap := { k with roots := k.roots.shrink m.heap.roots.size } }, ?_⟩⟩
    simp only [Functor.map, EStateM.map, Eval.onHeap, hok]

theorem Makes.mono {result : EStateM.Result Stop Machine Step} {shows shows' : Heap → Ref → Prop}
    (h : Makes size m bytes result shows) (himp : ∀ g r, shows g r → shows' g r) :
    Makes size m bytes result shows' := by
  refine ⟨fun hroom => ?_, h.2⟩
  obtain ⟨r, m', hok, hm', hr, hshows⟩ := h.1 hroom
  exact ⟨r, m', hok, hm', hr, himp _ _ hshows⟩

theorem Reachable.makesString (hm : Reachable size m) {text : String}
    (hsize : sequenceSize text.toList.length ≤ maxSize) :
    Makes size m (sequenceSize text.toList.length)
      ((Step.done <$> Eval.onHeap (HeapM.string text)) m) fun h r => h.stringValue r = .ok text := by
  have hrun : (Construction.string text).run =
      HeapM.room (sequenceSize text.toList.length) #v[] >>= fun _ =>
        HeapM.put .string (sequenceSize text.toList.length)
          (text.toList.length :: text.toList.map Char.toNat) [] := by
    rw [Construction.run, HeapM.string_eq]
    simp only [List.length_map, HeapM.checkSize, if_neg (Nat.not_lt_of_le hsize), pure_bind]
  have hvalid : (Construction.string text).Valid m.heap :=
    ⟨by simp [Construction.refs], Nat.le_refl _, trivial⟩
  refine (hm.makes hvalid ⟨rfl, rfl⟩ hrun).mono fun g r hshown => ?_
  obtain ⟨place, hcontent⟩ := hshown
  have hid : charOfCode ∘ Char.toNat = id := funext charOfCode_toNat
  refine stringValue_iff.mpr ⟨_, hcontent, ?_⟩
  rw [List.map_map, hid, List.map_id, String.ofList_toList]

theorem Reachable.makesInteger (hm : Reachable size m) (hfits : fitsWord i = true) :
    Makes size m (fieldsSize 2) ((Step.done <$> Eval.onHeap (HeapM.integer i)) m) fun h r =>
      h.object r = .integer i := by
  have hvalid : (Construction.integer i).Valid m.heap :=
    ⟨by simp [Construction.refs], Nat.le_refl _, Number.fitsWord_iff.mp hfits⟩
  refine (hm.makes hvalid ⟨rfl, rfl⟩ (HeapM.integer_eq i)).mono fun g r hshown => ?_
  obtain ⟨place, hcontent⟩ := hshown
  rw [object_eq, hcontent]
  rfl

end Machine

namespace Primitive

variable {m : Machine} {calls : Calls} {n b s base : Nat} {i : Int} {text : String}

theorem expectInteger_of_object (hr : h.object r = .integer i) : h.expectInteger r = .ok i := by
  unfold Heap.object at hr
  unfold Heap.expectInteger Heap.expectKind
  cases hk : h.kind r <;> rw [hk] at hr <;> cases hr
  rfl

theorem base_run (hb : m.heap.object b = .integer base)
    (hbase : base = 2 ∨ base = 8 ∨ base = 10 ∨ base = 16) :
    Primitive.base b m = .ok base m := by
  have hquery := Eval.query_run (·.expectInteger b) (expectInteger_of_object hb)
  simp only [Primitive.base, bind, EStateM.bind, liftM, monadLift, MonadLift.monadLift, hquery]
  rw [if_pos (by omega)]
  rfl

theorem number_run (hn : m.heap.object n = .integer i) :
    Primitive.number n m = .ok (.integer i) m := by
  simp only [Primitive.number, Eval.object, bind, EStateM.bind, get, getThe, MonadStateOf.get,
    EStateM.get, pure, EStateM.pure, hn]

theorem numberToString_run (hn : m.heap.object n = .integer i)
    (hb : m.heap.object b = .integer base)
    (hbase : base = 2 ∨ base = 8 ∨ base = 10 ∨ base = 16) :
    numberToString.run calls [n, b] m =
      (Step.done <$> Eval.onHeap (HeapM.string (Number.textIn base i))) m := by
  simp only [numberToString, binary, bind, EStateM.bind, number_run hn, base_run hb hbase]
  rfl

section

variable (hs : m.heap.stringValue s = .ok text) (hb : m.heap.object b = .integer base) (hbase : base
  = 2 ∨ base = 8 ∨ base = 10 ∨ base = 16)
include hs hb hbase

theorem stringToNumber_run :
    stringToNumber.run calls [s, b] m =
      (Step.done <$> (match (if base = 10 then Number.parse? text.toList
          else (Number.integerIn? base text.toList).map .integer) with
        | some number => store number
        | none => return Heap.falsity)) m := by
  have hquery := Eval.query_run (·.stringValue s) hs
  simp only [stringToNumber, binary, bind, EStateM.bind, liftM, monadLift, MonadLift.monadLift,
    hquery, base_run hb hbase]
  rfl

/-- The text of an integer is read as that integer. -/
theorem stringToNumber_numeral (hfits : fitsWord i = true)
    (hi : Number.IsInteger base text.toList i) :
    stringToNumber.run calls [s, b] m = (Step.done <$> Eval.onHeap (HeapM.integer i)) m := by
  rw [stringToNumber_run hs hb hbase]
  by_cases hten : base = 10
  · subst hten
    rw [if_pos rfl, Number.parse?_of_isInteger hi hfits]
    rfl
  · rw [if_neg hten, (Number.integerIn?_eq_some_iff (by omega)).mpr ⟨hi, hfits⟩]
    rfl

end

end Primitive

/-- Integers and their text. In each base an integer is written as its numeral, and its numeral is
read as that integer; in a base other than ten, whatever is read as an integer is a sign or none and
digits that denote it. -/
theorem integer_text_round_trip (size : UInt32) (calls : Calls) (base : Nat)
    (hbase : base = 2 ∨ base = 8 ∨ base = 10 ∨ base = 16) (m : Machine)
    (hm : Machine.Reachable size m) (b : Nat) (hb : m.heap.object b = .integer base) :
    (∀ n i, m.heap.object n = .integer i →
      Number.IsNumeral base i (Number.textIn base i).toList ∧
      Machine.Makes size m (sequenceSize (Number.textIn base i).toList.length)
        (Primitive.numberToString.run calls [n, b] m) fun h r =>
          h.stringValue r = .ok (Number.textIn base i)) ∧
    (∀ s text i, m.heap.stringValue s = .ok text → Number.IsNumeral base i text.toList →
      -2 ^ 63 ≤ i → i < 2 ^ 63 →
      Machine.Makes size m (fieldsSize 2) (Primitive.stringToNumber.run calls [s, b] m) fun h r =>
        h.object r = .integer i) ∧
    (base ≠ 10 → ∀ s text i r m', m.heap.stringValue s = .ok text →
      Primitive.stringToNumber.run calls [s, b] m = .ok (.done r) m' →
      m'.heap.object r = .integer i → Number.IsInteger base text.toList i) := by
  refine ⟨fun n i hn => ?_, fun s text i hs hi hlow hhigh => ?_,
    fun hten s text i r m' hs hrun hr => ?_⟩
  · have hfits := fitsWord_of_object hn
    refine ⟨Number.isNumeral_textIn (by omega) (by omega) i, ?_⟩
    rw [Primitive.numberToString_run hn hb hbase]
    refine hm.makesString ?_
    have hlength : (Number.textIn base i).toList.length ≤ 65 :=
      Number.length_textIn_le (by omega) hfits
    simp only [sequenceSize, fieldsSize, maxSize]
    omega
  · have hfits := Number.fitsWord_iff.mpr ⟨hlow, hhigh⟩
    rw [Primitive.stringToNumber_numeral hs hb hbase hfits hi.isInteger]
    exact hm.makesInteger hfits
  · rw [Primitive.stringToNumber_run hs hb hbase, if_neg hten] at hrun
    cases hparsed : Number.integerIn? base text.toList with
    | none =>
      rw [hparsed] at hrun
      obtain ⟨hdone, rfl⟩ := EStateM.Result.ok.inj hrun
      obtain rfl := Step.done.inj hdone
      have hkind := (hm.intact.sound.fixture (falsity, .falsity) (by decide)).2.1
      rw [Heap.object, Heap.kind, hkind] at hr
      cases hr
    | some j =>
      rw [hparsed] at hrun
      obtain ⟨hj, hfits⟩ := (Number.integerIn?_eq_some_iff (by omega)).mp hparsed
      obtain ⟨hmade, hfull⟩ := hm.makesInteger hfits
      by_cases hroom : m.heap.HasRoom (fieldsSize 2)
      · obtain ⟨q, k, hok, -, -, hq⟩ := hmade hroom
        obtain ⟨hdone, rfl⟩ := EStateM.Result.ok.inj (hrun.symm.trans hok)
        obtain rfl := Step.done.inj hdone
        cases hr.symm.trans hq
        exact hj
      · obtain ⟨k, herror⟩ := hfull hroom
        cases hrun.symm.trans herror

/-- The least integer in base two, in a machine that has just started and got the two numbers. -/
theorem integer_text_round_trip_least :
    ∃ (m : Machine) (n b : Nat), Machine.Reachable 0 m ∧ m.heap.object n = .integer (-2 ^ 63) ∧
      m.heap.object b = .integer (2 : Nat) ∧
      ∃ r m' text, Primitive.numberToString.run (interpreter 0) [n, b] m = .ok (.done r) m' ∧
        m'.heap.stringValue r = .ok text ∧ Number.IsNumeral 2 (-2 ^ 63) text.toList := by
  obtain ⟨ground, B, hB, htop, hroom⟩ := exists_grown 0
  have hcost : 20 + furnishCost + 2 * fieldsSize 2 + sequenceSize 65 ≤ maxSize := by decide
  obtain ⟨T, hT⟩ := hB.integer (-2 ^ 63) (hroom (by decide))
  obtain ⟨S, hS⟩ := hT.integer 2 (hroom (k := 1) (by decide))
  have hobject : ∀ {k : Nat} {i : Int} (hk : k < 2),
      S.world.store.item (B.world.store.items.length + k) = .integer i →
      S.machine.heap.object (S.machine.heap.root (B.slots.length + k)) = .integer i := fun hk hitem =>
    hS.faithful.toDepicts.object_integer (congrArg Item.object hitem) (hS.pos (by simpa using hk))
  have hn := hobject (k := 0) (by decide) (hS.item rfl)
  have hb := hobject (k := 1) (by decide) (hS.item rfl)
  have hm := hS.confined.reachable
  obtain ⟨htext, hmakes, -⟩ :=
    (integer_text_round_trip 0 (interpreter 0) 2 (.inl rfl) _ hm _ hb).1 _ _ hn
  have hroom : S.machine.heap.HasRoom
      (sequenceSize (Number.textIn 2 (-2 ^ 63)).toList.length) := by
    refine hm.intact.sound.wf.hasRoom ?_
    have hlength : (Number.textIn 2 (-2 ^ 63)).toList.length ≤ 65 :=
      Number.length_textIn_le (by decide) (by decide)
    have htop' := hS.top
    simp only [sequenceSize, fieldsSize, List.length_append, List.length_nil,
      List.length_singleton] at hcost htop' ⊢
    omega
  obtain ⟨r, m', hok, -, -, hr⟩ := hmakes hroom
  exact ⟨_, _, _, hm, hn, hb, r, m', _, hok, hr, htext⟩

end ArenaScheme
