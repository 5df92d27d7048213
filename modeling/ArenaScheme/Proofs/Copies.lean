import ArenaScheme.Heap.Writer
import ArenaScheme.Proofs.Objects

/-! What can be copied out of a heap: the datum of a value and its text. Both walks follow a value
down with the pairs and vectors they are inside of. Each of these is met once, and between two of
them lie only tagged values, which lead to older records; so the walks end before their fuel, and
corresponding values have the same datum and the same text. -/

namespace ArenaScheme

open Memory Heap

variable {α : Type} {l : List α} {fuel fuel' length : Nat} {path path' : Std.TreeSet Ref}
  {mode : WriteMode}

theorem countP_lt_countP {p q : α → Bool} {x : α} (hx : x ∈ l)
    (himp : ∀ y ∈ l, q y = true → p y = true) (hp : p x = true) (hq : q x = false) :
    l.countP q < l.countP p := by
  obtain ⟨s, t, rfl⟩ := List.append_of_mem hx
  have hs : s.countP q ≤ s.countP p := List.countP_mono_left fun y hy =>
    himp y (List.mem_append_left _ hy)
  have ht : t.countP q ≤ t.countP p := List.countP_mono_left fun y hy =>
    himp y (List.mem_append_right _ (List.mem_cons_of_mem _ hy))
  simp only [List.countP_append, List.countP_cons, hp, hq, if_true]
  simp only [Bool.false_eq_true, if_false]
  omega

namespace Heap

variable {h : Heap} {rules : Rules} {p q : Nat → Bool} {r c : Nat}

/-- How many records a walk has not met. -/
def unmet (h : Heap) (met : Nat → Bool) : Nat := h.records.countP fun r => !met r

/-- How many steps a walk inside of `met` can take from `r` on. -/
def depth (h : Heap) (met : Nat → Bool) (r : Nat) : Nat := h.unmet met * (h.top + 1) + r + 1

theorem unmet_le (hs : h.Sound rules) : h.unmet p ≤ h.top := by
  have := List.countP_le_length (p := fun r => !p r) (l := h.records)
  have := hs.wf.tiled.length_le
  unfold unmet
  omega

theorem unmet_lt (hr : r ∈ h.records) (hp : p r = false) (hq : ∀ x, q x = (r == x || p x)) :
    h.unmet q < h.unmet p := by
  refine countP_lt_countP hr (fun y _ hy => ?_) (by simp [hp]) (by simp [hq])
  rw [hq] at hy
  simp only [Bool.not_or, Bool.and_eq_true] at hy
  exact hy.2

theorem depth_lt (hs : h.Sound rules) (hr : r ∈ h.records) (hp : p r = false)
    (hq : ∀ x, q x = (r == x || p x)) (hc : c ∈ h.records) : h.depth q c < h.depth p r := by
  have hlt := unmet_lt hr hp hq
  have hmul := Nat.mul_le_mul_right (h.top + 1) (Nat.succ_le_of_lt hlt)
  have htop := hs.wf.lt_top hc
  rw [Nat.succ_mul] at hmul
  unfold depth
  omega

theorem depth_le (hs : h.Sound rules) (hr : r ∈ h.records) : h.depth p r ≤ h.nestingBound := by
  have hmul := Nat.mul_le_mul_right (h.top + 1) (unmet_le (p := p) hs)
  have htop := hs.wf.lt_top hr
  have hsquare : (h.top + 1) * (h.top + 1) ≤ h.nestingBound :=
    Nat.mul_le_mul (Nat.succ_le_succ hs.wf.top_le) (Nat.succ_le_succ hs.wf.top_le)
  rw [Nat.succ_mul] at hsquare
  unfold depth
  omega

theorem kind_of_vector (hr : h.object r = .vector length) :
    h.memory.kind r = .vector ∧ h.memory.field r 0 = length := by
  unfold object Heap.kind at hr
  cases hk : h.memory.kind r <;> simp only [hk] at hr <;> cases hr
  exact ⟨rfl, rfl⟩

theorem kind_of_tagged {marker value : Ref} (hr : h.object r = .tagged marker value) :
    h.memory.kind r = .tagged ∧ h.memory.field r 0 = marker ∧ h.memory.field r 1 = value := by
  unfold object Heap.kind at hr
  cases hk : h.memory.kind r <;> simp only [hk] at hr <;> cases hr
  exact ⟨rfl, rfl, rfl⟩

/-- The parts of a tagged value are older than it. -/
theorem tagged_lt (hs : h.Sound rules) (hr : r ∈ h.records) {marker value : Nat}
    (hobject : h.object r = .tagged marker value) :
    h.depth p marker < h.depth p r ∧ h.depth p value < h.depth p r := by
  obtain ⟨hk, rfl, rfl⟩ := kind_of_tagged hobject
  have hpart : ∀ k ∈ h.memory.referenceFields r, h.memory.field r k < r := by
    intro k hmem
    rcases hs.allowed r hr k hmem with ⟨-, hmay⟩ | ⟨-, hfits⟩
    · rw [hk] at hmay
      cases hmay
    · rw [hk] at hfits
      exact hfits
  simp only [referenceFields, hk] at hpart
  have hmarker := hpart 0 (by decide)
  have hvalue := hpart 1 (by decide)
  unfold depth
  omega

theorem length_le (hs : h.Sound rules) (hr : r ∈ h.records)
    (hobject : h.object r = .vector length) :
    length ≤ h.capacity := by
  obtain ⟨hk, rfl⟩ := kind_of_vector hobject
  have hend := (hs.wf.tiled.bounds hr).2
  have htop := hs.wf.top_le
  simp only [extent, hk, sequenceSize, fieldsSize] at hend
  omega

end Heap

theorem contains_insert (path : Std.TreeSet Ref) (r x : Ref) :
    (path.insert r).contains x = (r == x || path.contains x) := by
  rw [Std.TreeSet.contains_insert]
  congr 1
  by_cases hrx : r = x
  · simp [hrx]
  · rw [beq_false_of_ne hrx]
    exact beq_false_of_ne fun heq => hrx (Nat.compare_eq_eq.mp heq)

theorem Answers.mapM {β : Type} {f g : α → Except Fault β} (h : ∀ x ∈ l, Answers Eq (f x) (g x)) :
    Answers Eq (l.mapM f) (l.mapM g) := by
  induction l with
  | nil => exact .ok rfl
  | cons x l ih =>
    rw [List.mapM_cons, List.mapM_cons]
    refine (h x List.mem_cons_self).bind fun y _ heq => ?_
    subst heq
    refine (ih fun z hz => h z (List.mem_cons_of_mem _ hz)).bind fun ys _ heq => ?_
    subst heq
    exact .ok rfl

/-- Corresponding records have been met on both sides, or on neither. -/
def SameMet (v : View) (p q : Nat → Bool) : Prop := ∀ a b, v.Rel a b → p a = q b

namespace Corr

variable {v : View} {a b : Nat}

theorem sameMet_insert (hv : Corr v) (h : v.Rel a b) {p q p' q' : Nat → Bool} (hpq : SameMet v p q)
    (hp : ∀ x, p' x = (a == x || p x)) (hq : ∀ x, q' x = (b == x || q x)) : SameMet v p' q' := by
  intro c d hcd
  have heq : (a == c) = (b == d) := by
    rw [Bool.eq_iff_iff, beq_iff_eq, beq_iff_eq]
    exact hv.eq_iff h hcd
  rw [hp, hq, hpq c d hcd, heq]

/-- Inside of a pair or a vector that is not in the path, both walks have less to do. -/
theorem depth_insert (hv : Corr v) (hpath : SameMet v path.contains path'.contains) (h : v.Rel a b)
    (hout : path.contains a = false) {c d : Nat} (hcd : v.Rel c d) :
    v.left.depth (path.insert a).contains c < v.left.depth path.contains a ∧
      v.right.depth (path'.insert b).contains d < v.right.depth path'.contains b :=
  ⟨depth_lt hv.left (hv.mem_left h.1) hout (contains_insert path a) (hv.mem_left hcd.1),
    depth_lt hv.right (hv.mem_right h.1) (hpath a b h ▸ hout) (contains_insert path' b)
      (hv.mem_right hcd.1)⟩

theorem datumFrom (hv : Corr v) (hpath : SameMet v path.contains path'.contains) (h : v.Rel a b)
    (hfuel : v.left.depth path.contains a ≤ fuel)
    (hfuel' : v.right.depth path'.contains b ≤ fuel') :
    Answers Eq (v.left.datumFrom fuel path a) (v.right.datumFrom fuel' path' b) := by
  induction fuel generalizing fuel' path path' a b with
  | zero => exact absurd hfuel (Nat.not_succ_le_zero _)
  | succ fuel ih =>
    obtain ⟨fuel', rfl⟩ : ∃ n, fuel' = n + 1 :=
      ⟨fuel' - 1, by unfold depth at hfuel'; omega⟩
    have ha := hv.mem_left h.1
    have hb := hv.mem_right h.1
    have hsame := hpath a b h
    -- One level down, for a pair or a vector that is not in the path.
    have hinside : path.contains a = false → ∀ c d, v.Rel c d →
        Answers Eq (v.left.datumFrom fuel (path.insert a) c)
          (v.right.datumFrom fuel' (path'.insert b) d) := by
      intro hout c d hcd
      obtain ⟨hlt, hlt'⟩ := hv.depth_insert hpath h hout hcd
      exact ih (hv.sameMet_insert h hpath (contains_insert path a) (contains_insert path' b)) hcd
        (by omega) (by omega)
    have hobject := hv.object h
    unfold Heap.datumFrom
    generalize ho : v.left.object a = o at hobject ⊢
    generalize ho' : v.right.object b = o' at hobject ⊢
    cases hobject with
    | integer | float | boolean | char | null | eof | environment | binding => exact .ok rfl
    | symbol => exact (hv.symbolName h).bind fun _ _ heq => .ok (congrArg _ heq.1)
    | string => exact (hv.stringValue h).bind fun _ _ heq => .ok (congrArg _ heq)
    | builtin | closure => exact (hv.procedureName h).bind fun _ _ heq => .ok (congrArg _ heq)
    | pair hcar hcdr =>
      simp only [← hsame]
      cases hout : path.contains a with
      | true => exact .error _ rfl
      | false =>
        refine (hinside hout _ _ hcar).bind fun x _ heq => ?_
        subst heq
        exact (hinside hout _ _ hcdr).bind fun _ _ heq => .ok (congrArg _ heq)
    | vector length =>
      simp only [← hsame, Nat.min_eq_left (length_le hv.left ha ho),
        Nat.min_eq_left (length_le hv.right hb ho')]
      cases hout : path.contains a with
      | true => exact .error _ rfl
      | false =>
        obtain ⟨hk, hlength⟩ := kind_of_vector ho
        refine (Answers.mapM fun i hi => hinside hout _ _ (hv.rel_element h hk ?_)).bind
          fun _ _ heq => .ok (congrArg _ heq)
        rw [hlength]
        exact List.mem_range.mp hi
    | tagged hmarker hvalue =>
      -- The path stays, and both parts are older.
      obtain ⟨hm, hx⟩ := tagged_lt (p := path.contains) hv.left ha ho
      obtain ⟨hm', hx'⟩ := tagged_lt (p := path'.contains) hv.right hb ho'
      refine (ih hpath hmarker (by omega) (by omega)).bind fun x _ heq => ?_
      subst heq
      exact (ih hpath hvalue (by omega) (by omega)).bind fun _ _ heq => .ok (congrArg _ heq)

theorem sameMet_empty : SameMet v (∅ : Std.TreeSet Ref).contains (∅ : Std.TreeSet Ref).contains :=
  fun _ _ _ => by rw [Std.TreeSet.contains_emptyc, Std.TreeSet.contains_emptyc]

theorem datum (hv : Corr v) (h : v.Rel a b) :
    Answers Eq (v.left.datum a) (v.right.datum b) :=
  hv.datumFrom sameMet_empty h (depth_le hv.left (hv.mem_left h.1))
    (depth_le hv.right (hv.mem_right h.1))

theorem nameText (hv : Corr v) (h : v.Rel a b) : v.right.nameText b = v.left.nameText a := by
  have hname := hv.symbolName h
  unfold Heap.nameText
  generalize v.left.symbolName a = x at hname ⊢
  generalize v.right.symbolName b = y at hname ⊢
  cases hname with
  | ok heq => exact heq.1.symm
  | error => rfl

/-- `fuel` steps write corresponding values alike, and corresponding lists that are not being
written further out, which takes one step less. -/
def WritesAlike (v : View) (mode : WriteMode) (fuel : Nat) : Prop :=
  ∀ {fuel' : Nat} {path path' : Std.TreeSet Ref} {a b : Nat} (out : String),
    SameMet v path.contains path'.contains → v.Rel a b →
    (2 * v.left.depth path.contains a ≤ fuel → 2 * v.right.depth path'.contains b ≤ fuel' →
      v.left.textFrom mode fuel path a out = v.right.textFrom mode fuel' path' b out) ∧
    (path.contains a = false → 2 * v.left.depth path.contains a ≤ fuel + 1 →
      2 * v.right.depth path'.contains b ≤ fuel' + 1 →
      v.left.spineFrom mode fuel path a out = v.right.spineFrom mode fuel' path' b out)

theorem textFrom_succ (hv : Corr v) (ih : WritesAlike v mode fuel) (out : String)
    (hpath : SameMet v path.contains path'.contains) (h : v.Rel a b)
    (hfuel : 2 * v.left.depth path.contains a ≤ fuel + 1)
    (hfuel' : 2 * v.right.depth path'.contains b ≤ fuel' + 1) :
    v.left.textFrom mode (fuel + 1) path a out = v.right.textFrom mode (fuel' + 1) path' b out := by
  have hobject := hv.object h
  unfold Heap.textFrom
  generalize ho : v.left.object a = o at hobject ⊢
  generalize ho' : v.right.object b = o' at hobject ⊢
  cases hobject with
  | integer | float | boolean | char | null | eof | environment | binding => rfl
  | symbol => simp only [hv.nameText h]
  | string =>
    have hvalue := hv.stringValue h
    generalize v.left.stringValue a = x at hvalue ⊢
    generalize v.right.stringValue b = y at hvalue ⊢
    cases hvalue with
    | ok heq => rw [heq]
    | error => rfl
  | builtin _ hname => simp only [hv.nameText hname]
  | closure hc => simp only [hv.nameText hc.name]
  | pair =>
    simp only [← hpath a b h]
    cases hout : path.contains a with
    | true => simp only [if_true]
    | false =>
      simp only [Bool.false_eq_true, if_false]
      rw [(ih _ hpath h).2 hout hfuel hfuel']
  | vector length =>
    simp only [← hpath a b h]
    cases hout : path.contains a with
    | true => simp only [if_true]
    | false =>
      obtain ⟨hk, hlength⟩ := kind_of_vector ho
      simp only [Bool.false_eq_true, if_false]
      congr 1
      refine List.foldl_ext _ _ _ fun text i hi => ?_
      have hitem := hv.rel_element h hk (hlength ▸ List.mem_range.mp hi)
      obtain ⟨hlt, hlt'⟩ := hv.depth_insert hpath h hout hitem
      exact (ih _ (hv.sameMet_insert h hpath (contains_insert path a) (contains_insert path' b))
        hitem).1 (by omega) (by omega)
  | tagged _ hvalue =>
    obtain ⟨-, hlt⟩ := tagged_lt (p := path.contains) hv.left (hv.mem_left h.1) ho
    obtain ⟨-, hlt'⟩ := tagged_lt (p := path'.contains) hv.right (hv.mem_right h.1) ho'
    have hpart := (@ih fuel' _ _ _ _ (out ++ "<tag ") hpath hvalue).1 (by omega) (by omega)
    simp only [hpart]

theorem spineFrom_succ (hv : Corr v) (ih : WritesAlike v mode fuel) (out : String)
    (hpath : SameMet v path.contains path'.contains) (h : v.Rel a b)
    (hout : path.contains a = false) (hfuel : 2 * v.left.depth path.contains a ≤ fuel + 2)
    (hfuel' : 2 * v.right.depth path'.contains b ≤ fuel' + 2) :
    v.left.spineFrom mode (fuel + 1) path a out =
      v.right.spineFrom mode (fuel' + 1) path' b out := by
  have hobject := hv.object h
  unfold Heap.spineFrom
  generalize v.left.object a = o at hobject ⊢
  generalize v.right.object b = o' at hobject ⊢
  cases hobject with
  | @pair car car' cdr cdr' hcar hcdr =>
    have hpath' := hv.sameMet_insert h hpath (contains_insert path a) (contains_insert path' b)
    obtain ⟨hlt, hlt'⟩ := hv.depth_insert hpath h hout hcar
    have hfirst := (@ih fuel' _ _ _ _ out hpath' hcar).1 (by omega) (by omega)
    obtain ⟨hlt, hlt'⟩ := hv.depth_insert hpath h hout hcdr
    simp only [hfirst]
    generalize v.right.textFrom mode fuel' (path'.insert b) car' out = text
    have hrest := hv.object hcdr
    generalize v.left.object cdr = o at hrest ⊢
    generalize v.right.object cdr' = o' at hrest ⊢
    cases hrest with
    | null => rfl
    | pair =>
      simp only [← hpath' cdr cdr' hcdr]
      cases hmet : (path.insert a).contains cdr with
      | true => simp only [if_true]
      | false => exact (ih _ hpath' hcdr).2 hmet (by omega) (by omega)
    | _ => exact (ih _ hpath' hcdr).1 (by omega) (by omega)
  | _ => rfl

theorem writesAlike (hv : Corr v) (mode : WriteMode) (fuel : Nat) : WritesAlike v mode fuel := by
  induction fuel with
  | zero =>
    intro fuel' path path' a b out hpath h
    constructor <;> intros <;> unfold depth at * <;> omega
  | succ fuel ih =>
    intro fuel' path path' a b out hpath h
    have hpos : 1 ≤ v.right.depth path'.contains b := Nat.succ_le_succ (Nat.zero_le _)
    obtain _ | fuel' := fuel'
    · constructor <;> intros <;> omega
    · exact ⟨hv.textFrom_succ ih out hpath h, hv.spineFrom_succ ih out hpath h⟩

theorem text (hv : Corr v) (mode : WriteMode) (h : v.Rel a b) :
    v.left.text mode a = v.right.text mode b :=
  (hv.writesAlike mode _ "" sameMet_empty h).1
    (Nat.mul_le_mul_left 2 (depth_le hv.left (hv.mem_left h.1)))
    (Nat.mul_le_mul_left 2 (depth_le hv.right (hv.mem_right h.1)))

end Corr

end ArenaScheme
