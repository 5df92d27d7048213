import ArenaScheme.Proofs.DataReading
import ArenaScheme.Proofs.FormScans
import ArenaScheme.Proofs.QuotedData

/-! One round of expansion. It replaces the first call of the form, where sub-forms come before the
forms that contain them, by what the transformer returns. The expander itself writes nothing else; the
rest of the form is as it was, up to where its records stand, unless the transformer has changed it. -/

namespace ArenaScheme

open Memory Heap HeapM Eval

variable {t : Form} {c : FoundCall} {q r : Nat} {place : Nat → Nat} {parent : Option Nat}

namespace Surface

variable {s : Surface}

/-- `u` is an element of the list `t`; the first field of `q` holds it. -/
inductive Element : (t : Form) → (q : Nat) → (u : Form) → Prop
  | head {q : Nat} {car cdr : Form} : Element (.pair q car cdr) q car
  | tail {r q : Nat} {car cdr u : Form} : Element cdr q u → Element (.pair r car cdr) q u

/-- A form holds a call: it is one itself, or an element of it holds one. Quotations hold none. -/
inductive Call (s : Surface) : (parent : Option Nat) → (t : Form) → FoundCall → Prop
  | whole {parent : Option Nat} {r : Nat} {car cdr : Form} : car.root ≠ s.quote →
    s.isCall car.root = true → Call s parent (.pair r car cdr) ⟨parent, r⟩
  | element {parent : Option Nat} {r q : Nat} {car cdr u : Form} {c : FoundCall} :
    car.root ≠ s.quote → Element (.pair r car cdr) q u → Call s (some q) u c →
    Call s parent (.pair r car cdr) c

theorem mem_elementCalls {u : Form} (hu : Element t q u) (hc : c ∈ s.calls (some q) u) :
    c ∈ s.elementCalls t := by
  induction hu with
  | head => exact List.mem_append_left _ hc
  | tail _ ih => exact List.mem_append_right _ (ih hc)

theorem Call.mem_calls (h : s.Call parent t c) : c ∈ s.calls parent t := by
  induction h with
  | whole hquote hcall =>
    rw [calls, if_neg hquote, if_pos hcall]
    exact List.mem_append_right _ (List.mem_singleton.mpr rfl)
  | element hquote hu _ ih => exact mem_calls_of_element hquote (mem_elementCalls hu ih)

theorem call_of_mem (t : Form) :
    (∀ parent, ∀ c ∈ s.calls parent t, s.Call parent t c) ∧
      ∀ c ∈ s.elementCalls t, ∃ q u, Element t q u ∧ s.Call (some q) u c := by
  induction t with
  | leaf _ => exact ⟨(fun _ _ hc => nomatch hc), fun _ hc => nomatch hc⟩
  | pair r car cdr ihcar ihcdr =>
    have helement : ∀ c ∈ s.elementCalls (.pair r car cdr),
        ∃ q u, Element (.pair r car cdr) q u ∧ s.Call (some q) u c := fun c hc => by
      rcases List.mem_append.mp hc with hc | hc
      · exact ⟨r, car, .head, ihcar.1 _ c hc⟩
      · obtain ⟨q, u, hu, hcall⟩ := ihcdr.2 c hc
        exact ⟨q, u, .tail hu, hcall⟩
    refine ⟨fun parent c hc => ?_, helement⟩
    rw [calls] at hc
    split at hc
    · cases hc
    case isFalse hquote =>
      rcases List.mem_append.mp hc with hc | hc
      · obtain ⟨q, u, hu, hcall⟩ := helement c hc
        exact .element hquote hu hcall
      · split at hc
        case isTrue hcall =>
          rw [List.mem_singleton.mp hc]
          exact .whole hquote hcall
        case isFalse => cases hc

/-- The calls that are listed are those that the form holds. -/
theorem mem_calls_iff : c ∈ s.calls parent t ↔ s.Call parent t c :=
  ⟨(call_of_mem t).1 parent c, Call.mem_calls⟩

end Surface

namespace Form

variable {t car cdr : Form} {call q r x : Nat}

def leaves : Form → List Nat
  | leaf r => [r]
  | pair _ car cdr => car.leaves ++ cdr.leaves

/-- The same form somewhere else. -/
def map (place : Nat → Nat) : Form → Form
  | leaf r => leaf (place r)
  | pair r car cdr => pair (place r) (car.map place) (cdr.map place)

/-- The form with something else in the place of the pair `call`. -/
def put (call value : Nat) : Form → Form
  | leaf r => leaf r
  | pair r car cdr => if r = call then leaf value else pair r (car.put call value) (cdr.put call value)

@[simp] theorem root_map (place : Nat → Nat) (t : Form) : (t.map place).root = place t.root := by
  cases t <;> rfl

theorem pairs_map (place : Nat → Nat) (t : Form) : (t.map place).pairs = t.pairs.map place := by
  induction t with
  | leaf _ => rfl
  | pair r car cdr ihcar ihcdr =>
    simp only [map, pairs, ihcar, ihcdr, List.map_cons, List.map_append]

theorem put_eq_self (h : call ∉ t.pairs) : t.put call x = t := by
  induction t with
  | leaf _ => rfl
  | pair r car cdr ihcar ihcdr =>
    simp only [pairs, List.mem_cons, List.mem_append, not_or] at h
    rw [put, if_neg fun heq => h.1 heq.symm, ihcar h.2.1, ihcdr h.2.2]

/-- The first field of the pair `q` of the form holds the pair `call`. -/
inductive Held (q call : Nat) : Form → Prop
  | here {a d cdr : Form} : Held q call (.pair q (.pair call a d) cdr)
  | car {r : Nat} {car cdr : Form} : Held q call car → Held q call (.pair r car cdr)
  | cdr {r : Nat} {car cdr : Form} : Held q call cdr → Held q call (.pair r car cdr)

theorem Held.map (h : Held q call t) (place : Nat → Nat) : Held (place q) (place call) (t.map place) := by
  induction h with
  | here => exact .here
  | car _ ih => exact .car ih
  | cdr _ ih => exact .cdr ih

theorem Held.mem (h : Held q call t) : q ∈ t.pairs ∧ call ∈ t.pairs := by
  induction h with
  | here => exact ⟨List.mem_cons_self, List.mem_cons_of_mem _ (List.mem_cons_self)⟩
  | car _ ih =>
    exact ⟨List.mem_cons_of_mem _ (List.mem_append_left _ ih.1),
      List.mem_cons_of_mem _ (List.mem_append_left _ ih.2)⟩
  | cdr _ ih =>
    exact ⟨List.mem_cons_of_mem _ (List.mem_append_right _ ih.1),
      List.mem_cons_of_mem _ (List.mem_append_right _ ih.2)⟩

end Form

namespace Surface

variable {s w : Surface} {t : Form} {q call x rest : Nat}

/-- The pairs of the form lead to what it says, whatever its leaves are. -/
def Has (s : Surface) : Form → Prop
  | .leaf _ => True
  | .pair r car cdr => s.pair? r = some (car.root, cdr.root) ∧ s.Has car ∧ s.Has cdr

theorem Spells.has (h : s.Spells t) : s.Has t := by
  induction t with
  | leaf _ => trivial
  | pair r car cdr ihcar ihcdr => exact ⟨h.1, ihcar h.2.1, ihcdr h.2.2⟩

theorem Has.congr (h : s.Has t)
    (hsame : ∀ p ∈ t.pairs, ∀ c, s.pair? p = some c → w.pair? p = some c) : w.Has t := by
  induction t with
  | leaf _ => trivial
  | pair r car cdr ihcar ihcdr =>
    refine ⟨hsame r List.mem_cons_self _ h.1, ?_, ?_⟩
    · exact ihcar h.2.1 fun p hp => hsame p (List.mem_cons_of_mem _ (List.mem_append_left _ hp))
    · exact ihcdr h.2.2 fun p hp => hsame p (List.mem_cons_of_mem _ (List.mem_append_right _ hp))

/-- Writing the field that holds a call puts something else in its place, and does nothing to the
rest of the form. -/
theorem Has.put (h : s.Has t) (hdistinct : t.pairs.Nodup) (hheld : t.Held q call)
    (hother : ∀ p ∈ t.pairs, p ≠ q → ∀ c, s.pair? p = some c → w.pair? p = some c)
    (hrest : ∀ d, s.pair? q = some (call, d) → w.pair? q = some (x, d)) :
    w.Has (t.put call x) ∧ (t.put call x).root = t.root := by
  induction hheld with
  | @here a d cdr =>
    simp only [Form.pairs, List.nodup_cons, List.mem_cons, List.mem_append, not_or,
      List.cons_append, List.nodup_append] at hdistinct
    obtain ⟨⟨hne, -, hq⟩, hcall⟩ := hdistinct
    have hcdr : call ∉ cdr.pairs := fun hmem => hcall.1.2 hmem
    rw [Form.put, if_neg hne, Form.put, if_pos rfl, Form.put_eq_self hcdr]
    refine ⟨⟨hrest _ h.1, trivial, h.2.2.congr fun p hp => hother p ?_ fun heq => hq (heq ▸ hp)⟩, rfl⟩
    exact List.mem_cons_of_mem _ (List.mem_append_right _ hp)
  | @car r car cdr hheld ih =>
    simp only [Form.pairs, List.nodup_cons, List.mem_append, not_or, List.nodup_append] at hdistinct
    obtain ⟨⟨hr, hr'⟩, hcar, -, hapart⟩ := hdistinct
    obtain ⟨hhas, hroot⟩ := ih h.2.1 hcar fun p hp =>
      hother p (List.mem_cons_of_mem _ (List.mem_append_left _ hp))
    obtain ⟨hq, hcall⟩ := hheld.mem
    have hcdr : call ∉ cdr.pairs := fun hmem => hapart call hcall call hmem rfl
    rw [Form.put, if_neg (show r ≠ call from fun heq => hr (heq ▸ hcall)), Form.put_eq_self hcdr]
    refine ⟨⟨?_, hhas, h.2.2.congr fun p hp => hother p
      (List.mem_cons_of_mem _ (List.mem_append_right _ hp)) fun heq => hapart q hq p hp heq.symm⟩, rfl⟩
    rw [hroot]
    exact hother r List.mem_cons_self (fun heq => hr (heq ▸ hq)) _ h.1
  | @cdr r car cdr hheld ih =>
    simp only [Form.pairs, List.nodup_cons, List.mem_append, not_or, List.nodup_append] at hdistinct
    obtain ⟨⟨hr, hr'⟩, -, hcdr, hapart⟩ := hdistinct
    obtain ⟨hhas, hroot⟩ := ih h.2.2 hcdr fun p hp =>
      hother p (List.mem_cons_of_mem _ (List.mem_append_right _ hp))
    obtain ⟨hq, hcall⟩ := hheld.mem
    have hcar : call ∉ car.pairs := fun hmem => hapart call hmem call hcall rfl
    rw [Form.put, if_neg (show r ≠ call from fun heq => hr' (heq ▸ hcall)), Form.put_eq_self hcar]
    refine ⟨⟨?_, h.2.1.congr fun p hp => hother p
      (List.mem_cons_of_mem _ (List.mem_append_left _ hp)) fun heq => hapart p hp q hq heq, hhas⟩, rfl⟩
    rw [hroot]
    exact hother r List.mem_cons_self (fun heq => hr' (heq ▸ hq)) _ h.1

/-- A call is the whole form, or the pair that comes with it holds it. -/
theorem Call.held (h : s.Call parent t c) :
    c.parent = parent ∧ c.call = t.root ∧ c.call ∈ t.pairs ∨
      ∃ q, c.parent = some q ∧ t.Held q c.call := by
  induction h with
  | whole _ _ => exact Or.inl ⟨rfl, rfl, List.mem_cons_self⟩
  | @element parent r q car cdr u c _ hu _ ih =>
    refine Or.inr ?_
    rcases ih with ⟨hparent, hcall, hmem⟩ | ⟨q', hparent, hheld⟩
    · refine ⟨q, hparent, ?_⟩
      clear * - hu hcall hmem
      generalize Form.pair r car cdr = t at hu ⊢
      induction hu with
      | @head q car cdr =>
        cases car with
        | leaf _ => cases hmem
        | pair r a d =>
          obtain rfl : c.call = r := hcall
          exact .here
      | tail _ ih => exact .cdr (ih hcall hmem)
    · refine ⟨q', hparent, ?_⟩
      clear * - hu hheld
      generalize Form.pair r car cdr = t at hu ⊢
      induction hu with
      | head => exact .car hheld
      | tail _ ih => exact .cdr (ih hheld)

end Surface

/-- A datum without parts. -/
def Datum.IsAtom : Datum → Prop
  | .pair _ _ | .vector _ => False
  | _ => True

namespace Heap

variable {rules : Rules} {n : Nat} {may : Effect → Prop} {h k g : Heap}

theorem Conveyed.shows {kept : Nat → Prop} {d : Datum} (hc : Conveyed n h g kept place)
    (hs : h.Sound rules) (hr : kept r) (hd : h.Shows r d) : g.Shows (place r) d :=
  hd.carry hs hc.carries (hc.mem hr) ⟨hr, rfl⟩

/-- Writing to a pair leaves data without parts as they are. -/
theorem Shows.setField {x : Nat} {d : Datum} {m : Memory} (hd : h.Shows r d) (hatom : d.IsAtom)
    (hr : r ∈ h.records) (hq : h.memory.kind q = .pair)
    (hset : FieldSet h.records h.memory q 0 x m) :
    { h with memory := m }.Shows r d := by
  have hne : h.memory.kind r ≠ .pair → r ≠ q := fun hk heq => hk (heq ▸ hq)
  have hmatch : h.memory.kind r ≠ .pair → Matches Eq h.memory r m r := fun hk =>
    hset.matches_other hr (hne hk)
  cases hd with
  | plain ho =>
    have hk := kind_of_datum? ho
    have hm := hmatch fun hpair => by rw [hpair] at hk; cases hk
    exact .plain (by rw [Matches.object_eq (g := { h with memory := m }) hm hk, ho])
  | symbol ho =>
    rw [symbolName_eq_ok_iff] at ho
    have hm := hmatch fun hpair => by rw [hpair] at ho; cases ho.1
    refine .symbol (symbolName_eq_ok_iff.mpr ⟨hm.kind.trans ho.1, ?_⟩)
    rw [Matches.nameBytes (g := { h with memory := m }) hm ho.1, ho.2]
  | string ho =>
    rw [stringValue_eq_ok_iff] at ho
    have hm := hmatch fun hpair => by rw [hpair] at ho; cases ho.1
    refine .string (stringValue_eq_ok_iff.mpr ⟨hm.kind.trans ho.1, ?_⟩)
    rw [Matches.characters_eq (g := { h with memory := m }) hm ho.1, ho.2]
  | pair _ _ _ | vector _ _ => cases hatom

end Heap

namespace Machine

variable {m k m' : Machine} {fuel slot n : Nat} {found : FoundCall} {t : Form} {kept : Nat → Prop}

/-- The machine after the expander has written the value of a call. It had `n` roots before; the next
one holds the pair, if any, whose first field holds the call. -/
def replaced (k : Machine) (slot : Slot) (n : Nat) (parent : Option Ref) (value : Ref) : Machine :=
  let written := match parent with
    | some _ => k.after (onHeap (HeapM.setCar (k.heap.root n) value))
    | none => k.after (onHeap (HeapM.setRoot slot value))
  written.after (onHeap (HeapM.releaseRoots n))

/-- A round applies the transformer and writes one field or one slot. -/
theorem replaceCall_eq {calls : Calls} (hrun : replaceCall calls slot found m = .ok () m') :
    ∃ x k, expandCall calls found.call (m.applying found) = .ok x k ∧
      m' = k.replaced slot m.heap.roots.size found.parent x := by
  obtain ⟨parent, call⟩ := found
  cases parent with
  | some pair =>
    obtain ⟨x, k, hexpand, hrest⟩ := Eval.exists_of_bind (m := m.pushed pair)
      (x := expandCall calls call) hrun
    obtain ⟨_, k', hwrite, hrest⟩ := Eval.exists_of_bind
      (x := onHeap (HeapM.setCar (k.heap.root m.heap.roots.size) x)) hrest
    cases hrest
    refine ⟨x, k, hexpand, ?_⟩
    unfold replaced
    rw [after_eq_ok hwrite]
    rfl
  | none =>
    obtain ⟨x, k, hexpand, hrest⟩ := Eval.exists_of_bind (x := expandCall calls call) hrun
    cases hrest
    exact ⟨x, k, hexpand, rfl⟩

/-- The rest of the form after a round: it leads to the value of the call where it led to the call,
and all else is the same at another place. -/
structure Continued (m m' : Machine) (slot : Slot) (t : Form) (call value : Ref)
    (place : Nat → Nat) : Prop where
  distinct : (t.map place).pairs.Nodup
  root : m'.heap.root slot = ((t.map place).put (place call) value).root
  pairs : m'.surface.Has ((t.map place).put (place call) value)
  leaves : ∀ r ∈ t.leaves, ∀ d : Datum, d.IsAtom → m.heap.Shows r d → m'.heap.Shows (place r) d
  /-- What the form leads to, also from within its leaves. -/
  records : ∃ kept : Nat → Prop, (∀ p ∈ t.pairs, kept p) ∧ (∀ r ∈ t.leaves, kept r) ∧
    ∀ r, kept r → (m.heap.memory.kind r).inTrees = false → ¬ t.Held r call →
      Matches (Goes kept place) m.heap.memory r m'.heap.memory (place r)

theorem conveyed_form (hc : Conveyed n m.heap k.heap kept place) (hm : m.Intact)
    (ht : m.surface.Spells t) (hroot : kept t.root) :
    k.surface.Has (t.map place) ∧ (∀ p ∈ t.pairs, kept p) ∧ ∀ r ∈ t.leaves, kept r := by
  induction t with
  | leaf r => exact ⟨trivial, (fun _ hp => nomatch hp), fun p hp => List.mem_singleton.mp hp ▸ hroot⟩
  | pair r car cdr ihcar ihcdr =>
    obtain ⟨hcar, hcdr, ho⟩ := hc.pair hm.sound hroot (pair?_eq.mp ht.1)
    obtain ⟨hcarHas, hcarPairs, hcarLeaves⟩ := ihcar ht.2.1 hcar
    obtain ⟨hcdrHas, hcdrPairs, hcdrLeaves⟩ := ihcdr ht.2.2 hcdr
    refine ⟨⟨?_, hcarHas, hcdrHas⟩, fun p hp => ?_, fun p hp => ?_⟩
    · rw [Form.root_map, Form.root_map]
      exact pair?_eq.mpr ho
    · rcases List.mem_cons.mp hp with rfl | hp
      · exact hroot
      · exact (List.mem_append.mp hp).elim (hcarPairs p) (hcdrPairs p)
    · exact (List.mem_append.mp hp).elim (hcarLeaves p) (hcdrLeaves p)

/-- What a form is made of are records, if the form is one. -/
theorem Intact.mem_of_has (hk : k.Intact) (ht : k.surface.Has t) (hroot : t.root ∈ k.heap.records) :
    (∀ p ∈ t.pairs, p ∈ k.heap.records) ∧ ∀ r ∈ t.leaves, r ∈ k.heap.records := by
  induction t with
  | leaf r => exact ⟨(fun _ hp => nomatch hp), fun p hp => List.mem_singleton.mp hp ▸ hroot⟩
  | pair r car cdr ihcar ihcdr =>
    obtain ⟨hpair, hcar, hcdr⟩ := kind_of_pair (pair?_eq.mp ht.1)
    obtain ⟨hcarPairs, hcarLeaves⟩ := ihcar ht.2.1
      (hcar ▸ hk.sound.pair_field_mem (k := 0) hroot hpair (by decide))
    obtain ⟨hcdrPairs, hcdrLeaves⟩ := ihcdr ht.2.2
      (hcdr ▸ hk.sound.pair_field_mem (k := 1) hroot hpair (by decide))
    refine ⟨fun p hp => ?_, fun p hp => (List.mem_append.mp hp).elim (hcarLeaves p) (hcdrLeaves p)⟩
    rcases List.mem_cons.mp hp with rfl | hp
    · exact hroot
    · exact (List.mem_append.mp hp).elim (hcarPairs p) (hcdrPairs p)

/-- What the expander applies a transformer to, and what it gets, are records. -/
theorem Intact.expandCall {call x : Ref} (hm : m.Intact) (hcall : call ∈ m.heap.records)
    (hrun : ArenaScheme.expandCall (interpreter fuel) call m = .ok x k) :
    k.Intact ∧ x ∈ k.heap.records ∧ k.heap.roots.size = m.heap.roots.size := by
  have hruns := Runs.expandCall (callsAlike_interpreter m fuel) hm.stands (View.diagonal_rel hcall)
  obtain ⟨w, b, hw, hcorr, -, hrel, hsize⟩ := post_of_runs hruns hrun
  have hbecomes := becomes_of_runs hruns
  rw [after_eq_ok hrun] at hbecomes
  exact ⟨hbecomes.intact hm, hw ▸ hcorr.mem_left hrel.1, hw ▸ hsize⟩

/-- Writing the first field of a pair. -/
theorem Intact.setCar {q x : Ref} (hk : k.Intact) (hq : q ∈ k.heap.records)
    (hpair : k.heap.memory.kind q = .pair) (hx : x ∈ k.heap.records) :
    ∃ memory, FieldSet k.heap.records k.heap.memory q 0 x memory ∧
      k.after (onHeap (HeapM.setCar q x)) = { k with heap := { k.heap with memory } } := by
  refine ⟨_, fieldSet_setField hk.sound.wf.tiled hk.sound.wf.top_le hq
    (Or.inl (by rw [pair_references hpair]; decide))
    (Nat.lt_trans (hk.sound.wf.lt_top hx) hk.sound.wf.top_lt), ?_⟩
  rw [after_onHeap, after_setCar, if_pos hpair]

/-- The form in a slot after a transformer that updates nothing has been applied. -/
structure Kept (m k : Machine) (slot : Slot) (t : Form) (kept : Nat → Prop) (place : Nat → Nat) :
    Prop where
  before : m.Intact
  intact : k.Intact
  conveyed : Conveyed m.heap.roots.size m.heap k.heap kept place
  root : k.heap.root slot = place t.root
  has : k.surface.Has (t.map place)
  distinct : (t.map place).pairs.Nodup
  pairs : ∀ p ∈ t.pairs, kept p
  leaves : ∀ r ∈ t.leaves, kept r

/-- A transformer that updates nothing leaves the form in a slot as it is. -/
theorem Intact.keeps_form {call x : Ref} (hm : m.Intact) (hcall : call ∈ m.heap.records)
    (hslot : slot < m.heap.roots.size) (hroot : m.heap.root slot = t.root)
    (ht : m.surface.Spells t) (hdistinct : t.pairs.Nodup)
    (he : Evolves m.rules m.heap.roots.size (· ≠ .update) m.heap
      (m.after (ArenaScheme.expandCall (interpreter fuel) call)).heap)
    (hrun : ArenaScheme.expandCall (interpreter fuel) call m = .ok x k) :
    ∃ kept place, m.Kept k slot t kept place := by
  obtain ⟨hk, -, -⟩ := hm.expandCall hcall hrun
  rw [after_eq_ok hrun] at he
  obtain ⟨kept, place, hc⟩ := he.conveyed hm.indexed (fun h => h rfl)
  obtain ⟨hkept, hplace⟩ := hc.root slot hslot
  rw [hroot] at hkept hplace
  obtain ⟨hhas, hpairs, hleaves⟩ := conveyed_form hc hm ht hkept
  refine ⟨kept, place, hm, hk, hc, hplace, hhas, ?_, hpairs, hleaves⟩
  rw [Form.pairs_map]
  refine List.pairwise_map.mpr (hdistinct.imp_of_mem fun hr hs hne heq => hne ?_)
  exact hc.injective (hpairs _ hr) (hpairs _ hs) heq

/-- A round that replaces the whole form. -/
theorem Kept.continued_whole {x : Ref} (h : m.Kept k slot t kept place) (hslot : slot < n)
    (hlt : slot < k.heap.roots.size) (hmem : t.root ∈ t.pairs) :
    Continued m (k.replaced slot n none x) slot t t.root x place := by
  have hput : (t.map place).put (place t.root) x = .leaf x := by
    cases t with
    | leaf _ => cases hmem
    | pair r car cdr =>
      change (if place r = place r then Form.leaf x else _) = _
      rw [if_pos rfl]
  refine ⟨h.distinct, ?_, ?_, fun r hr d _ hd => ?_, kept, h.pairs, h.leaves, fun r hr hk _ =>
    h.conveyed.carries.data r (h.conveyed.mem hr) _ ⟨hr, rfl⟩ hk⟩
  · rw [hput]
    change ((k.heap.roots.setIfInBounds slot x).shrink n)[slot]?.getD null = x
    rw [← Array.getElem?_toList, Array.toList_shrink, List.getElem?_take_of_lt hslot,
      Array.getElem?_toList, Array.getElem?_setIfInBounds_self_of_lt hlt, Option.getD_some]
  · rw [hput]
    trivial
  · exact (h.conveyed.shows h.before.sound (h.leaves r hr) hd).withRoots h.intact.sound
      (h.conveyed.stays (h.leaves r hr)) _

/-- A round that replaces a call which a pair of the form holds. -/
theorem Kept.continued_held {x q call : Ref} (h : m.Kept k slot t kept place) (hslot : slot < n)
    (hq : k.heap.root n = place q) (hheld : t.Held q call) (hx : x ∈ k.heap.records) :
    Continued m (k.replaced slot n (some q) x) slot t call x place := by
  have hheld' := hheld.map place
  have hpairs : ∀ p ∈ (t.map place).pairs, p ∈ k.heap.records := by
    rw [Form.pairs_map]
    intro p hp
    obtain ⟨r, hr, rfl⟩ := List.mem_map.mp hp
    exact h.conveyed.stays (h.pairs r hr)
  have hmem := hpairs _ hheld'.mem.1
  obtain ⟨d, hobject⟩ : ∃ d, k.heap.object (place q) = .pair (place call) d := by
    have hhas := h.has
    clear * - hheld' hhas
    generalize t.map place = u at hheld' hhas
    induction hheld' with
    | here => exact ⟨_, pair?_eq.mp hhas.1⟩
    | car _ ih => exact ih hhas.2.1
    | cdr _ ih => exact ih hhas.2.2
  obtain ⟨hkind, hcar, hcdr⟩ := kind_of_pair hobject
  obtain ⟨memory, hset, hafter⟩ := h.intact.setCar hmem hkind hx
  have hreplaced : k.replaced slot n (some q) x =
      { k with heap := { k.heap with memory, roots := k.heap.roots.shrink n } } := by
    unfold replaced
    simp only
    rw [hq, hafter]
    rfl
  generalize k.replaced slot n (some q) x = m' at hreplaced ⊢
  subst hreplaced
  have heq : ∀ r t, Linked Eq r t → t = r := fun r t hl =>
    hl.elim (fun habs => habs.2.trans habs.1.symm) Eq.symm
  have hput := h.has.put (w := Machine.surface
      { k with heap := { k.heap with memory, roots := k.heap.roots.shrink n } }) (x := x) h.distinct hheld'
    (fun p hp hne c hpair => pair?_eq.mpr (object_of_matches
      (hset.matches_other (hpairs p hp) hne) (pair?_eq.mp hpair) (heq _) (heq _)))
    fun e he => by
      obtain ⟨-, -, hrest⟩ := kind_of_pair (pair?_eq.mp he)
      refine pair?_eq.mpr (object_eq_pair_iff.mpr ⟨(hset.kind hmem).trans hkind, hset.self, ?_⟩)
      exact (hset.field hmem (fun _ => by decide) (by simp [extent, hkind, fieldsSize])).trans hrest
  refine ⟨h.distinct, ?_, hput.1, fun r hr d hatom hd => ?_, kept, h.pairs, h.leaves,
    fun r hr hk hother => ?_⟩
  · rw [hput.2, Form.root_map, ← h.root]
    change (k.heap.roots.shrink n)[slot]?.getD null = _
    rw [← Array.getElem?_toList, Array.toList_shrink, List.getElem?_take_of_lt hslot,
      Array.getElem?_toList]
    rfl
  · have hin := h.conveyed.stays (h.leaves r hr)
    exact ((h.conveyed.shows h.before.sound (h.leaves r hr) hd).withRoots h.intact.sound hin
      (k.heap.roots.shrink n)).setField hatom hin hkind hset
  · -- only the pair that holds the call has been written to
    have hne : place r ≠ place q := fun heq =>
      hother (h.conveyed.injective hr (h.pairs q hheld.mem.1) heq ▸ hheld)
    have hmoved := h.conveyed.carries.data r (h.conveyed.mem hr) _ ⟨hr, rfl⟩ hk
    have hsame := (hset.matches_other (h.conveyed.stays hr) hne).flip.mono fun _ _ => Eq.symm
    exact (hsame.eq_comp hmoved.flip).flip

/-- The form in a slot after a round. -/
theorem Intact.continued {x : Ref} (hm : m.Intact) (hslot : slot < m.heap.roots.size)
    (hroot : m.heap.root slot = t.root) (ht : m.surface.Spells t) (hdistinct : t.pairs.Nodup)
    (hcall : m.surface.Call none t found) (hharmless : m.Harmless (interpreter fuel) found)
    (hrun : ArenaScheme.expandCall (interpreter fuel) found.call (m.applying found) = .ok x k) :
    ∃ place, Continued m (k.replaced slot m.heap.roots.size found.parent x) slot t found.call x
      place := by
  have hmem : ∀ p ∈ t.pairs, p ∈ m.heap.records :=
    (hm.mem_of_has (Surface.Spells.has ht) (hroot ▸ hm.sound.wf.root _ (root_mem hslot))).1
  obtain ⟨parent, call⟩ := found
  rcases hcall.held with ⟨rfl, rfl, hin⟩ | ⟨q, rfl, hheld⟩
  · obtain ⟨kept, place, hkept⟩ := hm.keeps_form (hmem _ hin) hslot hroot ht hdistinct hharmless hrun
    obtain ⟨-, -, hsize⟩ := hm.expandCall (hmem _ hin) hrun
    exact ⟨place, hkept.continued_whole hslot (by omega) hin⟩
  · have hq := hmem _ hheld.mem.1
    have hslot' : (m.pushed q).heap.root slot = m.heap.root slot := root_pushed_of_lt hslot
    have hsize : (m.pushed q).heap.roots.size = m.heap.roots.size + 1 := Array.size_push _
    have hpushed := hm.pushed hq
    have hsurface : (m.pushed q).surface = m.surface :=
      congrArg (Surface.mk _ _) (funext (isTransformer_withRoots m _))
    obtain ⟨kept, place, hkept⟩ := hpushed.keeps_form (hmem _ hheld.mem.2) (by omega)
      (hslot'.trans hroot) (hsurface ▸ ht) hdistinct hharmless hrun
    obtain ⟨-, hx, -⟩ := hpushed.expandCall (hmem _ hheld.mem.2) hrun
    have hcontinued := hkept.continued_held hslot
      ((hkept.conveyed.root _ (by omega)).2.trans (congrArg place (m.root_pushed q))) hheld hx
    refine ⟨place, hcontinued.distinct, hcontinued.root, hcontinued.pairs, fun r hr d hatom hd => ?_,
      hcontinued.records⟩
    refine hcontinued.leaves r hr d hatom (hd.withRoots hm.sound ?_ _)
    exact (hm.mem_of_has (Surface.Spells.has ht)
      (hroot ▸ hm.sound.wf.root _ (root_mem hslot))).2 r hr

/-- The scan finds the first call of a form in which no pair stands twice, sub-forms before the forms
that contain them and from left to right, and it finds none only if there is none outside quotations.
A round of expansion then replaces this call: it applies the transformer, and writes the value to the
field, or the slot, that holds the call and to nothing else. So a transformer that updates nothing
leaves all other parts of the form as they were; such is one that calls no procedure that updates. -/
theorem expansion_replaces_first_call (m : Machine) (t : Form) (ht : m.surface.Spells t)
    (hdistinct : t.pairs.Nodup) :
    (m.findCall t.root = none ↔ ∀ found, ¬ m.surface.Call none t found) ∧
    (∀ found, m.surface.Call none t found ↔ found ∈ m.surface.calls none t) ∧
    m.findCall t.root = (m.surface.calls none t).head? ∧
    ∀ fuel slot found, m.Intact → slot < m.heap.roots.size → m.heap.root slot = t.root →
      m.findCall t.root = some found →
      (∀ rounds, expandIn (interpreter fuel) slot (rounds + 1) m =
        (do replaceCall (interpreter fuel) slot found
            expandIn (interpreter fuel) slot rounds) m) ∧
      (m.Calm fuel found → m.Harmless (interpreter fuel) found) ∧
      ∀ m', replaceCall (interpreter fuel) slot found m = .ok () m' →
        ∃ x k, ArenaScheme.expandCall (interpreter fuel) found.call (m.applying found) = .ok x k ∧
          m' = k.replaced slot m.heap.roots.size found.parent x ∧
          (m.Harmless (interpreter fuel) found →
            ∃ place, Continued m m' slot t found.call x place) := by
  have hfirst := findCall_of_distinct ht hdistinct
  refine ⟨?_, fun found => Surface.mem_calls_iff.symm, hfirst, ?_⟩
  · rw [hfirst, List.head?_eq_none_iff, List.eq_nil_iff_forall_not_mem]
    exact forall_congr' fun found => not_congr Surface.mem_calls_iff
  · intro fuel slot found hm hslot hroot hfound
    refine ⟨expandIn_of_found (hroot.symm ▸ hfound), fun hcalm => ?_, fun m' hrun => ?_⟩
    · exact hm.harmless (hroot ▸ hm.sound.wf.root _ (root_mem hslot)) hfound hcalm
    obtain ⟨x, k, hexpand, rfl⟩ := replaceCall_eq hrun
    refine ⟨x, k, hexpand, rfl, fun hharmless => ?_⟩
    have hcall : m.surface.Call none t found := Surface.mem_calls_iff.mp
      (List.mem_of_mem_head? (hfirst.symm.trans hfound))
    exact hm.continued hslot hroot ht hdistinct hcall hharmless hexpand

/-- A machine with the form `((a) (m))` in its slot. The transformer `m` writes to the list `(a)`, which
is the value of a variable as well. -/
def meddling : Machine where
  heap := (Heap.new 512).after do
    let _ ← HeapM.intern "quote"
    let begin ← HeapM.intern "begin"
    let name ← HeapM.intern "m"
    let a ← HeapM.intern "a"
    let shared ← HeapM.intern "g"
    let setter ← HeapM.intern "set-car!"
    let globals ← HeapM.environment none
    let transformers ← HeapM.environment none
    HeapM.putBinding globals setter (← HeapM.builtin setter 3)
    let one ← HeapM.integer 1
    let list ← HeapM.cons a null
    HeapM.putBinding globals shared list
    let body ← HeapM.cons setter (← HeapM.cons shared (← HeapM.cons one null))
    let body ← HeapM.cons begin (← HeapM.cons body null)
    HeapM.putBinding transformers name (← HeapM.closure name null globals body 0 false)
    let call ← HeapM.cons name null
    let _ ← HeapM.pushRoot (← HeapM.cons list (← HeapM.cons call null))
  keywords := { (default : Keywords) with quote := 20, begin := 46, forms := [(46, .begin)] }
  globals := 167
  transformers := 180
  hostProcedures := #[]
  output := ""
  tracing := false

def meddlingForm : Form :=
  .pair 412 (.pair 240 (.leaf 94) (.leaf null)) (.pair 399 (.pair 386 (.leaf 72) (.leaf null)) (.leaf null))

/-- What the machine shows of the form before a round and after it. -/
theorem meddling_shows :
    meddling.surface.pair? 412 = some (240, 399) ∧ meddling.surface.pair? 240 = some (94, null) ∧
    meddling.surface.pair? 399 = some (386, null) ∧ meddling.surface.pair? 386 = some (72, null) ∧
    meddling.surface.pair? 94 = none ∧ meddling.surface.pair? 72 = none ∧
    meddling.surface.pair? null = none ∧
    meddling.surface.calls none meddlingForm = [⟨some 399, 386⟩] ∧
    meddling.heap.symbolName 94 = .ok "a" ∧
    (match replaceCall (interpreter 5) 0 ⟨some 399, 386⟩ meddling with
      | .ok _ m' => decide (m'.heap.root 0 = 412 ∧ m'.surface.pair? 412 = some (240, 399) ∧
          m'.surface.pair? 240 = some (227, null) ∧ m'.heap.memory.kind 227 = .integer)
      | .error _ _ => false) = true := by
  decide +kernel

theorem spells_meddlingForm : meddling.surface.Spells meddlingForm := by
  obtain ⟨hform, hlist, hrest, hcall, ha, hm, hnull, -⟩ := meddling_shows
  exact ⟨hform, ⟨hlist, ha, hnull⟩, hrest, ⟨hcall, hm, hnull⟩, hnull⟩

/-- The scan finds `(m)` after it has gone through `(a)`, and `((a) (m))` is no call. -/
theorem expansion_replaces_first_call_meddling :
    meddling.surface.Spells meddlingForm ∧ meddlingForm.pairs.Nodup ∧
      meddling.findCall meddlingForm.root = some ⟨some 399, 386⟩ := by
  have hdistinct : meddlingForm.pairs.Nodup := by decide
  refine ⟨spells_meddlingForm, hdistinct, ?_⟩
  obtain ⟨-, -, -, -, -, -, -, hcalls, -⟩ := meddling_shows
  rw [(expansion_replaces_first_call meddling meddlingForm spells_meddlingForm hdistinct).2.2.1, hcalls]
  rfl

/-- A transformer that updates a pair of the form changes another part than the call. -/
theorem round_changes_other_part :
    ∃ m', meddling.findCall meddlingForm.root = some ⟨some 399, 386⟩ ∧
      replaceCall (interpreter 5) 0 ⟨some 399, 386⟩ meddling = .ok () m' ∧
      ∀ x place, ¬ Continued meddling m' 0 meddlingForm 386 x place := by
  have hshows := meddling_shows
  obtain ⟨-, -, -, -, -, -, -, hcalls, hname, hround⟩ := hshows
  have hfound := findCall_of_distinct spells_meddlingForm (by decide)
  rw [hcalls] at hfound
  generalize hrun : replaceCall (interpreter 5) 0 ⟨some 399, 386⟩ meddling = result at hround
  cases result with
  | error stop m' => cases hround
  | ok _ m' =>
    obtain ⟨hroot, hform, hlist, hkind⟩ := of_decide_eq_true hround
    refine ⟨m', hfound, rfl, fun x place hc => ?_⟩
    have hne : ∀ p ∈ [412, 240], place p ≠ place 386 := by
      have hdistinct := hc.distinct
      simp only [Form.pairs_map, meddlingForm, Form.pairs, List.map_cons, List.map_nil,
        List.nil_append, List.append_nil, List.cons_append, List.nodup_cons, List.mem_cons,
        List.not_mem_nil, or_false, not_or] at hdistinct
      intro p hp
      simp only [List.mem_cons, List.not_mem_nil, or_false] at hp
      rcases hp with rfl | rfl
      · exact hdistinct.1.2.2
      · exact hdistinct.2.1.2
    -- the form still starts with the list, whose element ought to be the symbol
    have hpairs := hc.pairs
    have hstart := hc.root
    simp only [meddlingForm, Form.map, Form.put, if_neg (hne 412 (by decide)),
      if_neg (hne 240 (by decide)), Form.root_pair] at hpairs hstart
    have hplace : place 412 = 412 := hstart.symm.trans hroot
    have hlistPlace : place 240 = 240 :=
      (Prod.mk.inj (Option.some.inj (hpairs.1.symm.trans (hplace.symm ▸ hform)))).1
    have hsymbol : place 94 = 227 :=
      (Prod.mk.inj (Option.some.inj (hpairs.2.1.1.symm.trans (hlistPlace.symm ▸ hlist)))).1
    have hshown := hc.leaves 94 (by decide) (.symbol "a") trivial (.symbol hname)
    rw [hsymbol] at hshown
    cases hshown with
    | plain ho =>
      generalize m'.heap.object 227 = o at ho
      cases o <;> cases ho
    | symbol ho =>
      rw [symbolName_eq_ok_iff, hkind] at ho
      cases ho.1

end Machine

end ArenaScheme
