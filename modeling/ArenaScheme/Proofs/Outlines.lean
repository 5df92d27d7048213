import ArenaScheme.Proofs.Shown

/-! What is written of a value. A writer follows the value down as far as it unfolds and cuts it off
at each pair or vector that it is inside of; what is left is a finite tree, the outline of the value,
and its text depends on nothing else. -/

namespace ArenaScheme

open Memory Heap

variable {items : List Outline} {write : Nat → String → String} {mode : WriteMode}

/-- The tree of a value, cut off where a pair or a vector contains itself. -/
inductive Outline where
  | leaf (d : Datum)
  | cut
  | pair (car cdr : Outline)
  | vector (items : List Outline)
  | tagged (value : Outline)

/-- The text of a datum without parts. -/
def Datum.leafText (mode : WriteMode) : Datum → String
  | integer value => toString value
  | float bits => Binary64.toText bits
  | symbol name => name
  | string text => mode.string text
  | boolean value => if value then "#t" else "#f"
  | char value => mode.char value
  | null => "()"
  | eof => "<EOF>"
  | procedure name => "<procedure " ++ name ++ ">"
  | environment => "<environment>"
  | _ => ""

namespace Outline

mutual

def text (mode : WriteMode) : Outline → List Char
  | leaf d => (d.leafText mode).toList
  | cut => ['.', '.', '.']
  | pair car cdr => '(' :: (text mode car ++ tailText mode cdr ++ [')'])
  | vector items => '#' :: '(' :: (itemsText mode items ++ [')'])
  | tagged value => '<' :: 't' :: 'a' :: 'g' :: ' ' :: (text mode value ++ ['>'])

/-- The text that ends a list whose last pair has this tail. -/
def tailText (mode : WriteMode) : Outline → List Char
  | leaf .null => []
  | leaf d => ' ' :: '.' :: ' ' :: (d.leafText mode).toList
  | cut => [' ', '.', ' ', '.', '.', '.']
  | pair car cdr => ' ' :: (text mode car ++ tailText mode cdr)
  | vector items => ' ' :: '.' :: ' ' :: '#' :: '(' :: (itemsText mode items ++ [')'])
  | tagged value => ' ' :: '.' :: ' ' :: '<' :: 't' :: 'a' :: 'g' :: ' ' :: (text mode value ++ ['>'])

def itemsText (mode : WriteMode) : List Outline → List Char
  | [] => []
  | t :: items => text mode t ++ restText mode items

def restText (mode : WriteMode) : List Outline → List Char
  | [] => []
  | t :: items => ' ' :: (text mode t ++ restText mode items)

end

/-- Something is cut off. -/
inductive HasCut : Outline → Prop
  | cut : HasCut .cut
  | car {a b : Outline} : HasCut a → HasCut (.pair a b)
  | cdr {a b : Outline} : HasCut b → HasCut (.pair a b)
  | item {items : List Outline} {t : Outline} : t ∈ items → HasCut t → HasCut (.vector items)
  | value {t : Outline} : HasCut t → HasCut (.tagged t)

theorem tailText_eq {t : Outline} (hnull : t ≠ .leaf .null) (hpair : ∀ a b, t ≠ .pair a b) :
    t.tailText mode = ' ' :: '.' :: ' ' :: t.text mode := by
  cases t with
  | leaf d => cases d <;> first | rfl | exact absurd rfl hnull
  | cut => rfl
  | pair a b => exact absurd rfl (hpair a b)
  | vector items => rfl
  | tagged value => rfl

/-- A vector is written element by element, with a blank before each one but the first. -/
theorem foldl_restText {start : Nat} (hstart : start ≠ 0)
    (hitems : ∀ i (hi : i < items.length) out,
      write (start + i) out = out ++ String.ofList (items[i].text mode))
    (out : String) :
    (List.range' start items.length).foldl
        (fun out i => write i (if i = 0 then out else out ++ " ")) out =
      out ++ String.ofList (restText mode items) := by
  induction items generalizing start out with
  | nil => simp [restText]
  | cons t items ih =>
    rw [List.length_cons, List.range'_succ, List.foldl_cons, if_neg hstart]
    have hfirst := hitems 0 (by simp) (out ++ " ")
    rw [Nat.add_zero] at hfirst
    rw [hfirst, ih (Nat.succ_ne_zero start) fun i hi out => ?_]
    · rw [List.getElem_cons_zero, restText, String.ofList_cons, String.ofList_append]
      simp [String.append_assoc]
    · have heq : start + 1 + i = start + (i + 1) := by omega
      rw [heq]
      exact hitems (i + 1) (Nat.succ_lt_succ hi) out

theorem foldl_itemsText
    (hitems : ∀ i (hi : i < items.length) out,
      write i out = out ++ String.ofList (items[i].text mode))
    (out : String) :
    (List.range items.length).foldl (fun out i => write i (if i = 0 then out else out ++ " ")) out =
      out ++ String.ofList (itemsText mode items) := by
  cases items with
  | nil => simp [itemsText]
  | cons t items =>
    rw [List.length_cons, List.range_eq_range', List.range'_succ, List.foldl_cons, if_pos rfl,
      hitems 0 (by simp), foldl_restText (Nat.succ_ne_zero 0) fun i hi out => ?_]
    · rw [List.getElem_cons_zero, itemsText, String.ofList_append, String.append_assoc]
    · have heq : 0 + 1 + i = i + 1 := by omega
      rw [heq]
      exact hitems (i + 1) (Nat.succ_lt_succ hi) out

end Outline

namespace Heap

/-- The datum of a value that is not made of others. -/
def leaf? (h : Heap) (r : Ref) : Option Datum :=
  match h.object r with
  | .symbol => (h.symbolName r).toOption.map .symbol
  | .string _ => (h.stringValue r).toOption.map .string
  | .builtin .. | .closure _ => (h.procedureName r).toOption.map .procedure
  | .environment _ => some .environment
  | object => object.datum?

/-- What is left of the value at a place, for a writer that is inside of the data `outer`. -/
inductive Outlines (h : Heap) : (outer : List Ref) → Nat → Outline → Prop
  | leaf {outer : List Ref} {r : Nat} {d : Datum} : h.leaf? r = some d → Outlines h outer r (.leaf d)
  | cut {outer : List Ref} {r : Nat} : r ∈ outer → h.IsCompound r → Outlines h outer r .cut
  | pair {outer : List Ref} {r car cdr : Nat} {a b : Outline} : r ∉ outer →
    h.object r = .pair car cdr → Outlines h (r :: outer) car a → Outlines h (r :: outer) cdr b →
    Outlines h outer r (.pair a b)
  | vector {outer : List Ref} {r : Nat} {items : List Outline} : r ∉ outer →
    h.object r = .vector items.length →
    (∀ i (hi : i < items.length), Outlines h (r :: outer) (h.field r (1 + i)) items[i]) →
    Outlines h outer r (.vector items)
  | tagged {outer : List Ref} {r marker value : Nat} {t : Outline} :
    h.object r = .tagged marker value → Outlines h (r :: outer) value t →
    Outlines h outer r (.tagged t)

variable {rules : Rules} {h : Heap} {r c : Nat} {d : Datum} {outer : List Ref}
  {path : Std.TreeSet Ref} {fuel : Nat} {t : Outline} {mode : WriteMode}

theorem not_isCompound_of_tagged {marker value : Ref} (ho : h.object r = .tagged marker value) :
    ¬ h.IsCompound r := by
  have hk := (kind_of_tagged ho).1
  rintro (hk' | hk') <;> cases hk.symm.trans hk'

theorem exists_of_toOption {α : Type} {e : Except Fault α} {f : α → Datum}
    (heq : e.toOption.map f = some d) : ∃ a, e = .ok a ∧ f a = d := by
  cases e with
  | error fault => cases heq
  | ok a => exact ⟨a, rfl, Option.some.inj heq⟩

/-- What is not made of others is no pair, no vector and no tagged value. -/
theorem object_of_leaf? (hl : h.leaf? r = some d) : (∀ car cdr, h.object r ≠ .pair car cdr) ∧
    (∀ length, h.object r ≠ .vector length) ∧
    ∀ marker value, h.object r ≠ .tagged marker value := by
  unfold leaf? at hl
  refine ⟨fun car cdr ho => ?_, fun length ho => ?_, fun marker value ho => ?_⟩ <;>
    rw [ho] at hl <;> cases hl

theorem textFrom_of_leaf? (hl : h.leaf? r = some d) (out : String) :
    h.textFrom mode (fuel + 1) path r out = out ++ d.leafText mode := by
  rw [textFrom]
  unfold leaf? at hl
  cases ho : h.object r with
  | symbol =>
    simp only [ho] at hl ⊢
    obtain ⟨name, hname, rfl⟩ := exists_of_toOption hl
    simp only [nameText, hname, Datum.leafText]
  | string length =>
    simp only [ho] at hl ⊢
    obtain ⟨text, htext, rfl⟩ := exists_of_toOption hl
    simp only [htext, Datum.leafText]
  | builtin name index =>
    simp only [ho, procedureName] at hl ⊢
    obtain ⟨text, hname, rfl⟩ := exists_of_toOption hl
    simp only [nameText, hname, Datum.leafText, String.append_assoc]
  | closure c =>
    simp only [ho, procedureName] at hl ⊢
    obtain ⟨text, hname, rfl⟩ := exists_of_toOption hl
    simp only [nameText, hname, Datum.leafText, String.append_assoc]
  | _ =>
    simp only [ho] at hl ⊢
    cases hl <;> rfl

/-! The kinds of the objects that have outlines of the two kinds that matter to a list. -/

theorem Outlines.of_object_null (ht : h.Outlines outer r t) (ho : h.object r = .null) :
    t = .leaf .null := by
  cases ht with
  | leaf hl =>
    unfold leaf? at hl
    rw [ho] at hl
    cases hl
    rfl
  | cut _ hr =>
    simp only [object, Heap.kind] at ho
    rcases hr with hk | hk <;> rw [hk] at ho <;> cases ho
  | pair _ ho' => cases ho.symm.trans ho'
  | vector _ ho' => cases ho.symm.trans ho'
  | tagged ho' => cases ho.symm.trans ho'

theorem Outlines.object_null (ht : h.Outlines outer r (.leaf .null)) : h.object r = .null := by
  cases ht with
  | leaf hl =>
    unfold leaf? at hl
    cases ho : h.object r with
    | null => rfl
    | symbol | string | builtin | closure =>
      simp only [ho] at hl
      obtain ⟨_, -, habs⟩ := exists_of_toOption hl
      cases habs
    | _ =>
      simp only [ho] at hl
      cases hl

theorem Outlines.of_object_pair {car cdr : Ref} (ht : h.Outlines outer r t)
    (ho : h.object r = .pair car cdr) (hr : r ∉ outer) : ∃ a b, t = .pair a b := by
  cases ht with
  | leaf hl => exact absurd ho ((object_of_leaf? hl).1 _ _)
  | cut hmem => exact absurd hmem hr
  | pair _ _ _ _ => exact ⟨_, _, rfl⟩
  | vector _ ho' => cases ho.symm.trans ho'
  | tagged ho' => cases ho.symm.trans ho'

/-- Both walks that write a value find the text of its outline. A list takes a step for itself and
one for each of its elements. -/
theorem Outlines.textFrom_eq (ht : h.Outlines outer r t) (hs : h.Sound rules) (hr : r ∈ h.records)
    (hpath : h.IsPath path outer) (mode : WriteMode) :
    (2 * h.depth path.contains r ≤ fuel → ∀ out,
      h.textFrom mode fuel path r out = out ++ String.ofList (t.text mode)) ∧
    (2 * h.depth path.contains r ≤ fuel + 1 → ∀ a b, t = .pair a b → ∀ out,
      h.spineFrom mode fuel path r out =
        out ++ String.ofList (a.text mode ++ b.tailText mode)) := by
  have hsucc : ∀ {fuel r} {path : Std.TreeSet Ref}, 2 * h.depth path.contains r ≤ fuel →
      ∃ rest, fuel = rest + 1 := fun {fuel r path} hfuel =>
    ⟨fuel - 1, by unfold depth at hfuel; omega⟩
  induction ht generalizing fuel path with
  | @leaf outer r d hl =>
    refine ⟨fun hfuel out => ?_, fun _ a b heq => by cases heq⟩
    obtain ⟨fuel, rfl⟩ := hsucc hfuel
    rw [textFrom_of_leaf? hl, Outline.text, String.ofList_toList]
  | @cut outer r hmem hcompound =>
    refine ⟨fun hfuel out => ?_, fun _ a b heq => by cases heq⟩
    obtain ⟨fuel, rfl⟩ := hsucc hfuel
    have hmet := (hpath r).mpr ⟨hmem, hcompound⟩
    rw [textFrom]
    rcases hcompound with hk | hk <;>
      simp only [object, Heap.kind, hk, hmet, if_true] <;> rfl
  | @pair outer r car cdr a b hout ho hcar hcdr ihcar ihcdr =>
    obtain ⟨hk, hcarField, hcdrField⟩ := kind_of_pair ho
    have hmem : car ∈ h.records := hcarField ▸ hs.pair_field_mem hr hk (k := 0) (by decide)
    have hmem' : cdr ∈ h.records := hcdrField ▸ hs.pair_field_mem hr hk (k := 1) (by decide)
    have hinsert := hpath.insert (isCompound_of_pair ho)
    have hmet := hpath.not_contains fun hin => hout hin.1
    have hspine : ∀ fuel, 2 * h.depth path.contains r ≤ fuel + 1 → ∀ out,
        h.spineFrom mode fuel path r out =
          out ++ String.ofList (a.text mode ++ b.tailText mode) := by
      intro fuel hfuel out
      have hlt := depth_lt hs hr hmet (contains_insert path r) hmem
      have hlt' := depth_lt hs hr hmet (contains_insert path r) hmem'
      obtain ⟨fuel, rfl⟩ : ∃ rest, fuel = rest + 1 := ⟨fuel - 1, by unfold depth at hlt; omega⟩
      rw [spineFrom, ho]
      simp only
      rw [(ihcar hmem hinsert).1 (by omega)]
      have hcdrText := @ihcdr (path.insert r) fuel hmem' hinsert
      -- how the list goes on depends on the tail
      split
      case h_1 hobject =>
        rw [hcdr.of_object_null hobject, Outline.tailText, List.append_nil]
      case h_2 hobject =>
        by_cases hin : cdr ∈ r :: outer
        · have hcut : b = .cut := by
            cases hcdr with
            | cut => rfl
            | leaf hl => exact absurd hobject ((object_of_leaf? hl).1 _ _)
            | pair hout' => exact absurd hin hout'
            | vector hout' => exact absurd hin hout'
            | tagged ho' => cases hobject.symm.trans ho'
          rw [if_pos ((hinsert cdr).mpr ⟨hin, isCompound_of_pair hobject⟩), hcut, Outline.tailText]
          exact String.toList_inj.mp (by simp)
        · obtain ⟨a', b', rfl⟩ := hcdr.of_object_pair hobject hin
          have hmet' := hinsert.not_contains fun hin' => hin hin'.1
          rw [if_neg (by rw [hmet']; decide), hcdrText.2 (by omega) a' b' rfl, Outline.tailText]
          exact String.toList_inj.mp (by simp)
      case h_3 hnull hpair =>
        rw [hcdrText.1 (by omega), Outline.tailText_eq]
        · exact String.toList_inj.mp (by simp)
        · rintro rfl
          exact hnull hcdr.object_null
        · rintro a' b' rfl
          cases hcdr with
          | pair _ ho' => exact hpair _ _ ho'
    refine ⟨fun hfuel out => ?_, fun hfuel a' b' heq out => ?_⟩
    · obtain ⟨fuel, rfl⟩ := hsucc hfuel
      rw [textFrom, ho]
      simp only
      rw [if_neg (by rw [hmet]; decide), hspine fuel (by omega), Outline.text]
      exact String.toList_inj.mp (by simp)
    · cases heq
      exact hspine fuel hfuel out
  | @vector outer r items hout ho hitems ih =>
    refine ⟨fun hfuel out => ?_, fun _ a b heq => by cases heq⟩
    obtain ⟨fuel, rfl⟩ := hsucc hfuel
    have hmet := hpath.not_contains fun hin => hout hin.1
    have hparts : ∀ i (hi : i < items.length) out,
        h.textFrom mode fuel (path.insert r) (h.field r (1 + i)) out =
          out ++ String.ofList (items[i].text mode) := by
      intro i hi out
      have hmem := field_mem_vector hs hr ho hi
      have hlt := depth_lt hs hr hmet (contains_insert path r) hmem
      exact (ih i hi hmem (hpath.insert (isCompound_of_vector ho))).1 (by omega) out
    rw [textFrom, ho]
    simp only
    rw [if_neg (by rw [hmet]; decide), Outline.foldl_itemsText hparts, Outline.text]
    exact String.toList_inj.mp (by simp)
  | @tagged outer r marker value t ho hvalue ih =>
    refine ⟨fun hfuel out => ?_, fun _ a b heq => by cases heq⟩
    obtain ⟨fuel, rfl⟩ := hsucc hfuel
    have hlt := (tagged_lt (p := path.contains) hs hr ho).2
    obtain ⟨hk, -, rfl⟩ := kind_of_tagged ho
    have hmem : h.memory.field r 1 ∈ h.records := by
      rcases hs.allowed r hr 1 (by simp [referenceFields, hk]) with ⟨-, hmay⟩ | ⟨hmem, -⟩
      · rw [hk] at hmay
        cases hmay
      · exact hmem
    rw [textFrom, ho]
    simp only
    rw [(ih hmem (hpath.cons (not_isCompound_of_tagged ho))).1 (by omega), Outline.text]
    exact String.toList_inj.mp (by simp)

end Heap

end ArenaScheme
