import ArenaScheme.Heap.Object
import ArenaScheme.Proofs.Agreement
import ArenaScheme.Proofs.ListLengths

/-! What records that stand for each other show of themselves: the same kind and the same contents,
with corresponding references. Every question about a value has corresponding answers. -/

namespace ArenaScheme

open Memory Heap

namespace Answers

variable {α β γ δ : Type} {post : α → β → Prop} {x : Except Fault α} {y : Except Fault β}

theorem mono {weaker : α → β → Prop} (h : Answers post x y)
    (himp : ∀ a b, post a b → weaker a b) : Answers weaker x y := by
  cases h with
  | ok h => exact .ok (himp _ _ h)
  | error fault hfault => exact .error fault hfault

theorem bind {last : γ → δ → Prop} {f : α → Except Fault γ} {g : β → Except Fault δ}
    (h : Answers post x y) (hnext : ∀ a b, post a b → Answers last (f a) (g b)) :
    Answers last (x >>= f) (y >>= g) := by
  cases h with
  | ok h => exact hnext _ _ h
  | error fault hfault => exact .error fault hfault

end Answers

/-- Closures with corresponding parts. -/
structure Closure.Alike (link : Nat → Nat → Prop) (c d : Closure) : Prop where
  name : link c.name d.name
  formals : link c.formals d.formals
  env : link c.env d.env
  body : link c.body d.body
  arity : c.arity = d.arity
  rest : c.rest = d.rest

/-- Contents that correspond. -/
inductive Object.Alike (link : Nat → Nat → Prop) : Object → Object → Prop
  | integer (value : Int) : Alike link (.integer value) (.integer value)
  | float (bits : UInt64) : Alike link (.float bits) (.float bits)
  | symbol : Alike link .symbol .symbol
  | pair {a b c d : Nat} : link a b → link c d → Alike link (.pair a c) (.pair b d)
  | string (length : Nat) : Alike link (.string length) (.string length)
  | boolean (value : Bool) : Alike link (.boolean value) (.boolean value)
  | char (value : Char) : Alike link (.char value) (.char value)
  | null : Alike link .null .null
  | eof : Alike link .eof .eof
  | vector (length : Nat) : Alike link (.vector length) (.vector length)
  | builtin {a b : Nat} (index : Nat) : link a b → Alike link (.builtin a index) (.builtin b index)
  | closure {c d : Closure} : c.Alike link d → Alike link (.closure c) (.closure d)
  | environment {o p : Option Ref} : Option.Rel link o p →
    Alike link (.environment o) (.environment p)
  | binding : Alike link .binding .binding
  | tagged {a b c d : Nat} : link a b → link c d → Alike link (.tagged a c) (.tagged b d)

namespace Corr

variable {v : View} {a b c d k : Nat}

section

variable (hv : Corr v)
include hv

theorem kind_eq (h : v.Rel a b) : v.right.memory.kind b = v.left.memory.kind a :=
  (hv.matched h).kind

/-- A reference field that never leads nowhere. -/
theorem rel_field (h : v.Rel a b) (hk : k ∈ v.left.memory.referenceFields a)
    (hmay : (v.left.memory.kind a).mayBeAbsent k = false) :
    v.Rel (v.left.memory.field a k) (v.right.memory.field b k) := by
  rcases (hv.matched h).reference k hk with ⟨habs, -⟩ | hrel
  · rcases hv.left.allowed a (hv.mem_left h.1) k hk with ⟨-, htrue⟩ | ⟨hmem, -⟩
    · exact absurd (hmay.symm.trans htrue) (by decide)
    · exact absurd habs (hv.left.wf.ne_absent hmem)
  · exact hrel

theorem lt_absent (h : v.rel a b) : a < absent ∧ b < absent :=
  ⟨Nat.lt_of_lt_of_le (hv.left.wf.lt_top (hv.mem_left h)) hv.left.wf.top_le_max,
    Nat.lt_of_lt_of_le (hv.right.wf.lt_top (hv.mem_right h)) hv.right.wf.top_le_max⟩

/-- A field that leads to a newer record, or nowhere. -/
theorem newer_field (h : v.Rel a b) (hk : k ∈ v.left.memory.referenceFields a) {target : Kind}
    (hfits : ∀ t s, (v.left.memory.kind a).Fits v.rules k a t s → t = target ∧ a < s) :
    Linked v.Rel (v.left.memory.field a k) (v.right.memory.field b k) ∧
      (v.left.memory.field a k ≠ absent →
        v.left.memory.kind (v.left.memory.field a k) = target) ∧
      a < v.left.memory.field a k ∧ b < v.right.memory.field b k := by
  have hlink := (hv.matched h).reference k hk
  refine ⟨hlink, ?_⟩
  rcases hlink with ⟨habs, habs'⟩ | hrel
  · rw [habs, habs']
    exact ⟨fun hne => absurd rfl hne, hv.lt_absent h.1⟩
  · rcases hv.left.allowed a (hv.mem_left h.1) k hk with ⟨habs, -⟩ | ⟨-, hallowed⟩
    · exact absurd habs (hv.left.wf.ne_absent (hv.mem_left hrel.1))
    · obtain ⟨hkind, hlt⟩ := hfits _ _ hallowed
      exact ⟨fun _ => hkind, hlt, (hv.lt_iff h hrel).mp hlt⟩

theorem field_eq (h : v.Rel a b) (hk : k ∉ v.left.memory.referenceFields a)
    (hend : 9 + 4 * k ≤ v.left.memory.extent a) :
    v.right.memory.field b k = v.left.memory.field a k :=
  (hv.matched h).field hk hend

theorem byte_eq (h : v.Rel a b) {i : Nat} (hlow : 5 ≤ i) (hi : i < v.left.memory.extent a)
    (hout : ¬ v.left.memory.InReference a i) :
    v.right.memory.byte (b + i) = v.left.memory.byte (a + i) :=
  (hv.matched h).payload i hlow hi hout

theorem object (h : v.Rel a b) :
    (v.left.object a).Alike v.Rel (v.right.object b) := by
  have hfield := fun k => hv.field_eq (k := k) h
  have hrel := fun k => hv.rel_field (k := k) h
  have hlink := (hv.matched h).reference
  simp only [extent, referenceFields] at hfield hrel hlink
  unfold Heap.object Heap.kind Heap.payload Heap.field
  rw [hv.kind_eq h]
  cases hk : v.left.memory.kind a <;> simp only [hk] at hfield hrel hlink ⊢
  case integer =>
    rw [hfield 0 (by simp) (by decide), hfield 1 (by simp) (by decide)]
    exact .integer _
  case float =>
    rw [hfield 0 (by simp) (by decide), hfield 1 (by simp) (by decide)]
    exact .float _
  case symbol => exact .symbol
  case pair => exact .pair (hrel 0 (by simp) rfl) (hrel 1 (by simp) rfl)
  case string =>
    rw [hfield 0 (by simp) (by simp only [sequenceSize, fieldsSize]; omega)]
    exact .string _
  case truth => exact .boolean true
  case falsity => exact .boolean false
  case char =>
    rw [hfield 0 (by simp) (by decide)]
    exact .char _
  case null => exact .null
  case builtin =>
    rw [hfield 1 (by simp) (by decide)]
    exact .builtin _ (hrel 0 (by simp) rfl)
  case closure =>
    have hbyte := hv.byte_eq h (i := 25) (by decide)
      (by simp only [extent, hk, closureSize, fieldsSize]; omega) (by
        rintro ⟨l, hl, hlow, hhigh⟩
        simp only [referenceFields, hk] at hl
        have : l = 5 := by omega
        subst this
        exact absurd hl (by decide))
    refine .closure ⟨hrel 0 (by simp) rfl, hrel 1 (by simp) rfl, hrel 2 (by simp) rfl,
      hrel 3 (by simp) rfl, (hfield 4 (by simp) (by decide)).symm, ?_⟩
    simp only [fieldAddress_eq, Nat.add_assoc]
    rw [hbyte]
  case vector =>
    rw [hfield 0 (by simp) (by simp only [sequenceSize, fieldsSize]; omega)]
    exact .vector _
  case eof => exact .eof
  case environment =>
    refine .environment ?_
    rcases hlink 0 (by simp) with ⟨habs, habs'⟩ | hlink
    · rw [if_pos habs, if_pos habs']
      exact .none
    · rw [if_neg (hv.left.wf.ne_absent (hv.mem_left hlink.1)),
        if_neg (hv.right.wf.ne_absent (hv.mem_right hlink.1))]
      exact .some hlink
  case binding => exact .binding
  case tagged => exact .tagged (hrel 0 (by simp) rfl) (hrel 1 (by simp) rfl)

theorem typeName (h : v.Rel a b) : v.right.typeName b = v.left.typeName a :=
  congrArg Kind.typeName (hv.kind_eq h)

theorem expectKind (h : v.Rel a b) (kind : Kind) (expected : String) :
    Answers (fun _ _ => v.left.memory.kind a = kind) (v.left.expectKind kind expected a)
      (v.right.expectKind kind expected b) := by
  unfold Heap.expectKind Heap.kind
  rw [hv.kind_eq h, hv.typeName h]
  split
  · exact .ok ‹_›
  · exact .error _ rfl

theorem rel_pair (h : v.Rel a b) (hk : v.left.memory.kind a = .pair) (hlt : k < 2) :
    v.Rel (v.left.memory.field a k) (v.right.memory.field b k) := by
  refine hv.rel_field h ?_ (by rw [hk]; rfl)
  rw [pair_references hk, List.mem_cons, List.mem_singleton]
  omega

theorem car_field (h : v.Rel a b) :
    Answers (fun c d => v.Rel c d ∧ v.left.memory.kind a = .pair ∧ c = v.left.memory.field a 0)
      (v.left.car a) (v.right.car b) :=
  (hv.expectKind h .pair "pair").bind fun _ _ hk => .ok ⟨hv.rel_pair h hk (by decide), hk, rfl⟩

theorem cdr_field (h : v.Rel a b) :
    Answers (fun c d => v.Rel c d ∧ v.left.memory.kind a = .pair ∧ c = v.left.memory.field a 1)
      (v.left.cdr a) (v.right.cdr b) :=
  (hv.expectKind h .pair "pair").bind fun _ _ hk => .ok ⟨hv.rel_pair h hk (by decide), hk, rfl⟩

theorem car (h : v.Rel a b) : Answers v.Rel (v.left.car a) (v.right.car b) :=
  (hv.car_field h).mono fun _ _ => And.left

theorem cdr (h : v.Rel a b) : Answers v.Rel (v.left.cdr a) (v.right.cdr b) :=
  (hv.cdr_field h).mono fun _ _ => And.left

theorem expectInteger (h : v.Rel a b) :
    Answers Eq (v.left.expectInteger a) (v.right.expectInteger b) := by
  refine (hv.expectKind h .integer "integer").bind fun _ _ hk => .ok ?_
  have hfield : ∀ k < 2, v.right.field b k = v.left.field a k := fun k hlt =>
    hv.field_eq h (by simp [referenceFields, hk]) (by simp only [extent, hk, fieldsSize]; omega)
  rw [Heap.payload, Heap.payload, hfield 0 (by decide), hfield 1 (by decide)]

theorem expectChar (h : v.Rel a b) :
    Answers Eq (v.left.expectChar a) (v.right.expectChar b) := by
  refine (hv.expectKind h .char "char").bind fun _ _ hk => .ok ?_
  have hfield : v.right.field b 0 = v.left.field a 0 :=
    hv.field_eq h (by simp [referenceFields, hk]) (by simp only [extent, hk, fieldsSize]; omega)
  rw [hfield]

theorem nameBytes (h : v.Rel a b) (hk : v.left.memory.kind a = .symbol) :
    v.right.nameBytes b = v.left.nameBytes a :=
  (hv.matched h).nameBytes hk

theorem expectSymbol (h : v.Rel a b) :
    Answers (fun _ _ => v.left.memory.kind a = .symbol) (v.left.expectSymbol a)
      (v.right.expectSymbol b) :=
  hv.expectKind h .symbol "symbol"

theorem symbolName (h : v.Rel a b) :
    Answers (fun x y => x = y ∧ v.left.memory.kind a = .symbol ∧
      x = Text.decode (v.left.nameBytes a)) (v.left.symbolName a) (v.right.symbolName b) :=
  (hv.expectSymbol h).bind fun _ _ hk => .ok ⟨by rw [hv.nameBytes h hk], hk, rfl⟩

/-- The length of a string or a vector. -/
theorem length_eq (h : v.Rel a b)
    (hk : v.left.memory.kind a = .string ∨ v.left.memory.kind a = .vector) :
    v.right.memory.field b 0 = v.left.memory.field a 0 := by
  refine hv.field_eq h ?_ ?_
  · rcases hk with hk | hk <;> simp [referenceFields, hk]
  · rcases hk with hk | hk <;> simp only [extent, hk, sequenceSize, fieldsSize] <;> omega

theorem code_eq (h : v.Rel a b) (hk : v.left.memory.kind a = .string) {i : Nat}
    (hi : i < v.left.memory.field a 0) :
    v.right.memory.field b (1 + i) = v.left.memory.field a (1 + i) :=
  hv.field_eq h (by simp [referenceFields, hk])
    (by simp only [extent, hk, sequenceSize, fieldsSize]; omega)

theorem stringLength (h : v.Rel a b) :
    Answers (fun m n => m = n ∧ v.left.memory.kind a = .string ∧ m = v.left.memory.field a 0)
      (v.left.stringLength a) (v.right.stringLength b) :=
  (hv.expectKind h .string "string").bind fun _ _ hk =>
    .ok ⟨(hv.length_eq h (Or.inl hk)).symm, hk, rfl⟩

end

theorem checkedIndex (length : Nat) (index : Int) :
    Answers (fun i j => i = j ∧ i < length) (checkedIndex length index)
      (checkedIndex length index) := by
  unfold ArenaScheme.checkedIndex
  split
  · exact .ok ⟨rfl, by omega⟩
  · exact .error _ rfl

section

variable (hv : Corr v) (h : v.Rel a b)
include hv h

theorem stringRef (index : Int) :
    Answers Eq (v.left.stringRef a index) (v.right.stringRef b index) := by
  refine (hv.stringLength h).bind fun m n ⟨hmn, hk, hm⟩ => ?_
  subst hmn hm
  refine (checkedIndex _ index).bind fun i j ⟨hij, hi⟩ => .ok ?_
  subst hij
  exact congrArg charOfCode (hv.code_eq h hk hi).symm

theorem stringValue :
    Answers Eq (v.left.stringValue a) (v.right.stringValue b) := by
  refine (hv.stringLength h).bind fun m n ⟨hmn, hk, hm⟩ => ?_
  subst hmn hm
  refine .ok (congrArg String.ofList (List.map_congr_left fun i hi => ?_))
  exact congrArg charOfCode (hv.code_eq h hk (List.mem_range.mp hi)).symm

theorem vectorLength :
    Answers (fun m n => m = n ∧ v.left.memory.kind a = .vector ∧ m = v.left.memory.field a 0)
      (v.left.vectorLength a) (v.right.vectorLength b) :=
  (hv.expectKind h .vector "vector").bind fun _ _ hk =>
    .ok ⟨(hv.length_eq h (Or.inr hk)).symm, hk, rfl⟩

theorem rel_element (hk : v.left.memory.kind a = .vector) {i : Nat}
    (hi : i < v.left.memory.field a 0) :
    v.Rel (v.left.memory.field a (1 + i)) (v.right.memory.field b (1 + i)) := by
  refine hv.rel_field h ?_ (by rw [hk]; rfl)
  simp only [referenceFields, hk, List.mem_range'_1]
  omega

theorem vectorRef (index : Int) :
    Answers v.Rel (v.left.vectorRef a index) (v.right.vectorRef b index) := by
  refine (hv.vectorLength h).bind fun m n ⟨hmn, hk, hm⟩ => ?_
  subst hmn hm
  refine (checkedIndex _ index).bind fun i j ⟨hij, hi⟩ => .ok ?_
  subst hij
  exact hv.rel_element h hk hi

theorem closureView :
    Answers (Closure.Alike v.Rel) (v.left.closureView a) (v.right.closureView b) := by
  unfold Heap.closureView
  rw [hv.typeName h]
  have hobject := hv.object h
  generalize v.left.object a = o at hobject ⊢
  generalize v.right.object b = p at hobject ⊢
  cases hobject with
  | closure hc => exact .ok hc
  | _ => exact .error _ rfl

theorem procedureName :
    Answers Eq (v.left.procedureName a) (v.right.procedureName b) := by
  unfold Heap.procedureName
  rw [hv.typeName h]
  have hobject := hv.object h
  generalize v.left.object a = o at hobject ⊢
  generalize v.right.object b = p at hobject ⊢
  cases hobject with
  | builtin _ hname => exact (hv.symbolName hname).mono fun _ _ => And.left
  | closure hc => exact (hv.symbolName hc.name).mono fun _ _ => And.left
  | _ => exact .error _ rfl

theorem eq_null_iff : a = null ↔ b = null :=
  hv.eq_iff h hv.rel_null

end

theorem exactly (hv : Corr v) (n : Nat) (h : v.Rel a b) :
    Option.Rel (List.Forall₂ v.Rel) (v.left.exactly n a) (v.right.exactly n b) := by
  induction n generalizing a b with
  | zero =>
    unfold Heap.exactly
    by_cases hnull : a = null
    · rw [if_pos hnull, if_pos ((hv.eq_null_iff h).mp hnull)]
      exact .some .nil
    · rw [if_neg hnull, if_neg fun hb => hnull ((hv.eq_null_iff h).mpr hb)]
      exact .none
  | succ n ih =>
    unfold Heap.exactly
    have hobject := hv.object h
    generalize v.left.object a = o at hobject ⊢
    generalize v.right.object b = p at hobject ⊢
    cases hobject with
    | pair hcar hcdr =>
      have hrest := ih hcdr
      simp only
      generalize v.left.exactly n _ = xs at hrest ⊢
      generalize v.right.exactly n _ = ys at hrest ⊢
      cases hrest with
      | none => exact .none
      | some hrest => exact .some (.cons hcar hrest)
    | _ => exact .none

theorem isList_iff (hv : Corr v) {n : Nat} (h : v.Rel a b) :
    v.left.IsList n a ↔ v.right.IsList n b := by
  induction n generalizing a b with
  | zero =>
    have hobject := hv.object h
    constructor
    · rintro ⟨ha⟩
      rw [ha] at hobject
      generalize hb : v.right.object b = o at hobject
      cases hobject
      exact .null hb
    · rintro ⟨hb⟩
      rw [hb] at hobject
      generalize ha : v.left.object a = o at hobject
      cases hobject
      exact .null ha
  | succ n ih =>
    have hobject := hv.object h
    constructor
    · rintro (_ | ⟨ha, hlist⟩)
      rw [ha] at hobject
      generalize hb : v.right.object b = o at hobject
      cases hobject with
      | pair _ hcdr => exact .pair hb ((ih hcdr).mp hlist)
    · rintro (_ | ⟨hb, hlist⟩)
      rw [hb] at hobject
      generalize ha : v.left.object a = o at hobject
      cases hobject with
      | pair _ hcdr => exact .pair ha ((ih hcdr).mpr hlist)

theorem listLength (hv : Corr v) (h : v.Rel a b) :
    Answers (fun m n => m = n ∧ v.left.IsList m a) (v.left.listLength a) (v.right.listLength b) := by
  have hleft := hv.left.wf.counted (hv.mem_left h.1)
  have hright := hv.right.wf.counted (hv.mem_right h.1)
  by_cases hlist : ∃ n, v.left.IsList n a
  · obtain ⟨n, hn⟩ := hlist
    rw [hleft.ok hn, hright.ok ((hv.isList_iff h).mp hn)]
    exact .ok ⟨rfl, hn⟩
  · have hnone : ∀ n, ¬ v.left.IsList n a := not_exists.mp hlist
    rw [hleft.improper hnone, hright.improper fun n hn => hnone n ((hv.isList_iff h).mpr hn),
      Heap.improper, Heap.improper, hv.typeName h]
    exact .error _ rfl

end Corr

end ArenaScheme
