import ArenaScheme.Proofs.CallPositions

/-! What a scan for calls finds. A form is a tree of pairs; the calls in it are listed with those of
the sub-forms first, from left to right, and a quotation has none. A scan that remembers the pairs it
has come upon finds the first call of that list, as long as no call stands in the form more than
once: what it passes over it has been through before, and has found no call there. -/

namespace ArenaScheme

variable {bound fuel : Nat} {parent : Option Nat}

/-- A form as the tree of its pairs, each with where it stands. -/
inductive Form where
  | leaf (r : Nat)
  | pair (r : Nat) (car cdr : Form)

namespace Form

def root : Form → Nat
  | leaf r => r
  | pair r _ _ => r

def pairs : Form → List Nat
  | leaf _ => []
  | pair r car cdr => r :: (car.pairs ++ cdr.pairs)

def size : Form → Nat
  | leaf _ => 0
  | pair _ car cdr => car.size + cdr.size + 1

@[simp] theorem root_leaf (r : Nat) : (leaf r).root = r := rfl

@[simp] theorem root_pair (r : Nat) (car cdr : Form) : (pair r car cdr).root = r := rfl

end Form

/-- What a scan for calls sees: which things are pairs, the head of quotations and the heads of
calls. -/
structure Surface where
  pair? : Nat → Option (Nat × Nat)
  quote : Nat
  isCall : Nat → Bool

namespace Surface

variable (s : Surface)

/-- Scans a form, given a scan of the sub-forms of a pair and of the pairs after it. -/
def scanForm (spine : Nat → Std.HashSet Nat → Machine.Scan) (parent : Option Nat) (form : Nat)
    (visited : Std.HashSet Nat) : Machine.Scan :=
  match s.pair? form with
  | some (head, _) =>
    if head = s.quote || visited.contains form then (visited, none)
    else
      match spine form (visited.insert form) with
      | (visited, some found) => (visited, some found)
      | (visited, none) => (visited, if s.isCall head then some { parent, call := form } else none)
  | none => (visited, none)

/-- Scans the first field of a pair and then the pairs after it. -/
def scanSpine : (fuel : Nat) → Nat → Std.HashSet Nat → Machine.Scan
  | 0, _, visited => (visited, none)
  | fuel + 1, pair, visited =>
    match s.pair? pair with
    | some (car, cdr) =>
      match s.scanForm (scanSpine fuel) (some pair) car visited with
      | (visited, some found) => (visited, some found)
      | (visited, none) =>
        if (s.pair? cdr).isNone || visited.contains cdr then (visited, none)
        else scanSpine fuel cdr (visited.insert cdr)
    | none => (visited, none)

def findCall (fuel form : Nat) : Option FoundCall :=
  (s.scanForm (s.scanSpine fuel) none form ∅).2

/-- The form is all there: its pairs lead to what it says, and its leaves are no pairs. -/
def Spells : Form → Prop
  | .leaf r => s.pair? r = none
  | .pair r car cdr => s.pair? r = some (car.root, cdr.root) ∧ Spells car ∧ Spells cdr

mutual

/-- The calls in a form, which the first field of `parent` holds. The sub-forms come first. -/
def calls (parent : Option Nat) : Form → List FoundCall
  | .leaf _ => []
  | .pair r car cdr =>
    if car.root = s.quote then []
    else calls (some r) car ++ elementCalls cdr ++
      if s.isCall car.root then [{ parent, call := r }] else []

/-- The calls in the elements of a list. -/
def elementCalls : Form → List FoundCall
  | .leaf _ => []
  | .pair q car cdr => calls (some q) car ++ elementCalls cdr

end

end Surface

/-- The two fields, if it is a pair. -/
def Object.pair? : Object → Option (Nat × Nat)
  | .pair car cdr => some (car, cdr)
  | _ => none

/-- What a scan sees of a machine. -/
def Machine.surface (m : Machine) : Surface where
  pair? r := (m.heap.object r).pair?
  quote := m.keywords.quote
  isCall := m.isTransformer

namespace Machine

variable (m : Machine)

theorem scanForm_eq {spine spine' : Ref → Std.HashSet Ref → Scan} (hspine : spine = spine')
    (parent : Option Ref) (form : Ref) (visited : Std.HashSet Ref) :
    m.scanForm spine parent form visited = m.surface.scanForm spine' parent form visited := by
  subst hspine
  unfold Machine.scanForm Surface.scanForm surface
  simp only
  cases m.heap.object form <;> rfl

theorem isPair_eq (r : Ref) : m.heap.isPair r = (m.surface.pair? r).isSome := by
  change (m.heap.kind r == .pair) = (m.heap.object r).pair?.isSome
  unfold Heap.object
  cases m.heap.kind r <;> rfl

theorem scanSpine_eq (fuel : Nat) : m.scanSpine fuel = m.surface.scanSpine fuel := by
  induction fuel with
  | zero => rfl
  | succ fuel ih =>
    funext pair visited
    simp only [Machine.scanSpine, Surface.scanSpine, ih, m.scanForm_eq rfl, m.isPair_eq,
      Option.not_isSome, show m.surface.pair? pair = (m.heap.object pair).pair? from rfl]
    cases m.heap.object pair <;> rfl

/-- The scan of a machine sees the surface alone. -/
theorem findCall_eq (form : Ref) : m.findCall form = m.surface.findCall (m.heap.capacity + 1) form := by
  unfold Machine.findCall Surface.findCall
  rw [m.scanForm_eq (m.scanSpine_eq _)]

end Machine

namespace Surface

variable {s : Surface} {t u car cdr : Form} {q r : Nat} {V : Std.HashSet Nat}

/-! A form is known by where it stands. -/

theorem Spells.eq_of_root (ht : s.Spells t) (hu : s.Spells u) (h : t.root = u.root) : t = u := by
  induction t generalizing u with
  | leaf r =>
    cases u with
    | leaf r' => exact congrArg Form.leaf h
    | pair r' a d =>
      have hpair : s.pair? r' = _ := hu.1
      rw [← show r = r' from h, show s.pair? r = none from ht] at hpair
      cases hpair
  | pair r a d iha ihd =>
    cases u with
    | leaf r' =>
      have hpair : s.pair? r = _ := ht.1
      rw [show r = r' from h, show s.pair? r' = none from hu] at hpair
      cases hpair
    | pair r' a' d' =>
      obtain ⟨ht, hta, htd⟩ := ht
      obtain ⟨hu, hua, hud⟩ := hu
      obtain rfl : r = r' := h
      rw [ht] at hu
      injection hu with hu
      injection hu with ha hd
      rw [iha hta hua ha, ihd htd hud hd]

/-- Each pair of a form is the root of a form within it. -/
theorem Spells.exists_of_mem (ht : s.Spells t) (hr : r ∈ t.pairs) :
    ∃ u, s.Spells u ∧ u.root = r ∧ u.size ≤ t.size ∧ 0 < u.size := by
  induction t with
  | leaf _ => cases hr
  | pair r' a d iha ihd =>
    rcases List.mem_cons.mp hr with rfl | hr
    · exact ⟨_, ht, rfl, Nat.le_refl _, Nat.succ_pos _⟩
    · rcases List.mem_append.mp hr with hr | hr
      · obtain ⟨u, hu, hroot, hsize, hpos⟩ := iha ht.2.1 hr
        exact ⟨u, hu, hroot, by simp only [Form.size]; omega, hpos⟩
      · obtain ⟨u, hu, hroot, hsize, hpos⟩ := ihd ht.2.2 hr
        exact ⟨u, hu, hroot, by simp only [Form.size]; omega, hpos⟩

/-- A pair is not part of what it leads to. -/
theorem Spells.not_mem (h : s.Spells (.pair q car cdr)) : q ∉ car.pairs ++ cdr.pairs := by
  intro hq
  have hle : ∀ {t : Form}, s.Spells t → t.size < (Form.pair q car cdr).size → q ∉ t.pairs :=
    fun ht hlt hmem => by
      obtain ⟨u, hu, hroot, hsize, -⟩ := ht.exists_of_mem hmem
      rw [hu.eq_of_root h hroot] at hsize
      omega
  rcases List.mem_append.mp hq with hq | hq
  · exact hle h.2.1 (by simp only [Form.size]; omega) hq
  · exact hle h.2.2 (by simp only [Form.size]; omega) hq

/-! Calls are pairs of the form. -/

theorem call_mem_pairs (t : Form) :
    (∀ parent, ∀ c ∈ s.calls parent t, c.call ∈ t.pairs) ∧
      ∀ c ∈ s.elementCalls t, c.call ∈ t.pairs := by
  induction t with
  | leaf _ => exact ⟨(fun _ _ hc => nomatch hc), fun _ hc => nomatch hc⟩
  | pair r car cdr ihcar ihcdr =>
    have helement : ∀ c ∈ s.calls (some r) car ++ s.elementCalls cdr,
        c.call ∈ (Form.pair r car cdr).pairs := fun c hc =>
      List.mem_cons_of_mem _ (List.mem_append.mpr
        ((List.mem_append.mp hc).imp (ihcar.1 _ c) (ihcdr.2 c)))
    refine ⟨fun parent c hc => ?_, helement⟩
    rw [calls] at hc
    split at hc
    · cases hc
    · rcases List.mem_append.mp hc with hc | hc
      · exact helement c hc
      · split at hc
        · rw [List.mem_singleton.mp hc]
          exact List.mem_cons_self
        · cases hc

theorem mem_calls_of_element (hquote : car.root ≠ s.quote) {c : FoundCall}
    (hc : c ∈ s.elementCalls (.pair r car cdr)) : c ∈ s.calls parent (.pair r car cdr) := by
  rw [calls, if_neg hquote]
  exact List.mem_append_left _ hc

/-! The scan. -/

/-- The pair at `p` has been gone through: its elements have no calls. -/
def Clean (s : Surface) (p : Nat) : Prop := ∀ t, s.Spells t → t.root = p → s.elementCalls t = []

theorem clean_of_elementCalls (ht : s.Spells t) (h : s.elementCalls t = []) : s.Clean t.root :=
  fun _ hu hroot => hu.eq_of_root ht hroot ▸ h

/-- How many of the first positions have not been met. -/
def unmet (bound : Nat) (V : Std.HashSet Nat) : Nat :=
  (List.range bound).countP fun r => !V.contains r

theorem unmet_insert (hr : r < bound) (hout : V.contains r = false) :
    unmet bound (V.insert r) < unmet bound V := by
  have hinsert : ∀ y, (V.insert r).contains y = (r == y || V.contains y) := fun _ =>
    Std.HashSet.contains_insert
  refine countP_lt_countP (List.mem_range.mpr hr) (fun y _ hy => ?_)
    (by simp only [hout, Bool.not_false]) (by simp [hinsert])
  rw [hinsert, Bool.not_or, Bool.and_eq_true] at hy
  exact hy.2

/-- A scan of pairs among `ps` in which the calls are `found`. If there are none, it has met clean
pairs of `ps` only. -/
structure Scanned (s : Surface) (V : Std.HashSet Nat) (ps : List Nat) (found : List FoundCall)
    (result : Machine.Scan) : Prop where
  first : result.2 = found.head?
  grows : result.2 = none → ∀ p, V.contains p = true → result.1.contains p = true
  fresh : result.2 = none → ∀ p, result.1.contains p = true →
    V.contains p = true ∨ p ∈ ps ∧ s.Clean p

theorem Scanned.unmet_le {ps : List Nat} {found : List FoundCall} {W : Std.HashSet Nat} {bound : Nat}
    (h : s.Scanned V ps found (W, none)) : unmet bound W ≤ unmet bound V := by
  refine List.countP_mono_left fun r _ hr => ?_
  cases hV : V.contains r with
  | false => rfl
  | true =>
    rw [h.grows rfl r hV] at hr
    cases hr

/-- What the scan of a part with the pairs `ps` and the calls `found` relies on: the pairs met before
are clean, and each call is met for the first time and once. -/
structure Ready (s : Surface) (V : Std.HashSet Nat) (ps : List Nat) (found : List FoundCall) : Prop where
  clean : ∀ p ∈ ps, V.contains p = true → s.Clean p
  unmet : ∀ c ∈ found, V.contains c.call = false
  once : ∀ c ∈ found, ps.count c.call ≤ 1

theorem contains_insert_iff {p : Nat} :
    (V.insert r).contains p = true ↔ p = r ∨ V.contains p = true := by
  rw [Std.HashSet.contains_insert, Bool.or_eq_true, beq_iff_eq, eq_comm]

/-- Going on with the elements of a list after its first pair was met. -/
theorem Ready.insert (hr : s.Ready V (t.pairs) (s.elementCalls t)) (ht : s.Spells t)
    (heq : t = .pair r car cdr) :
    s.Ready (V.insert r) (car.pairs ++ cdr.pairs) (s.elementCalls t) := by
  subst heq
  have hout := ht.not_mem
  have hmem : ∀ c ∈ s.elementCalls (.pair r car cdr), c.call ∈ car.pairs ++ cdr.pairs := fun c hc =>
    List.mem_append.mpr ((List.mem_append.mp hc).imp ((call_mem_pairs car).1 _ c)
      ((call_mem_pairs cdr).2 c))
  refine ⟨fun p hp hV => ?_, fun c hc => ?_, fun c hc => ?_⟩
  · rcases contains_insert_iff.mp hV with rfl | hV
    · exact absurd hp hout
    · exact hr.clean p (List.mem_cons_of_mem _ hp) hV
  · refine Bool.eq_false_iff.mpr fun hV => ?_
    rcases contains_insert_iff.mp hV with heq | hV
    · exact hout (heq ▸ hmem c hc)
    · rw [hr.unmet c hc] at hV
      cases hV
  · exact Nat.le_trans (List.Sublist.count_le _ (List.sublist_cons_self _ _)) (hr.once c hc)

/-- What the scan of the elements of a list does. -/
def ScansElements (s : Surface) (bound fuel : Nat)
    (spine : Nat → Std.HashSet Nat → Machine.Scan) : Prop :=
  ∀ q car cdr V, s.Spells (.pair q car cdr) → unmet bound V < fuel →
    s.Ready V (car.pairs ++ cdr.pairs) (s.elementCalls (.pair q car cdr)) →
    s.Scanned V (car.pairs ++ cdr.pairs) (s.elementCalls (.pair q car cdr)) (spine q V)

section

variable (hbound : ∀ r p, s.pair? r = some p → r < bound)
include hbound

theorem scanForm_scanned {spine : Nat → Std.HashSet Nat → Machine.Scan}
    (hspine : s.ScansElements bound fuel spine) (ht : s.Spells t) (hfuel : unmet bound V ≤ fuel)
    (hr : s.Ready V t.pairs (s.calls parent t)) :
    s.Scanned V t.pairs (s.calls parent t) (s.scanForm spine parent t.root V) := by
  have hstop : ∀ {found : List FoundCall}, found = [] → s.Scanned V t.pairs found (V, none) := by
    rintro _ rfl
    exact ⟨rfl, fun _ _ h => h, fun _ _ h => Or.inl h⟩
  unfold scanForm
  cases t with
  | leaf r =>
    rw [Form.root_leaf, show s.pair? r = none from ht]
    exact hstop rfl
  | pair r car cdr =>
    simp only [Form.root_pair, ht.1]
    by_cases hquote : car.root = s.quote
    · simp only [hquote, decide_true, Bool.true_or, if_true]
      exact hstop (by rw [calls, if_pos hquote])
    by_cases hmet : V.contains r = true
    · simp only [hmet, Bool.or_true, if_true]
      refine hstop ?_
      have helements := hr.clean r List.mem_cons_self hmet _ ht rfl
      rw [elementCalls, List.append_eq_nil_iff] at helements
      rw [calls, if_neg hquote, helements.1, helements.2]
      split
      case isTrue hcall =>
        have hin : (⟨parent, r⟩ : FoundCall) ∈ s.calls parent (.pair r car cdr) := by
          rw [calls, if_neg hquote, if_pos hcall]
          exact List.mem_append_right _ (List.mem_singleton.mpr rfl)
        rw [hr.unmet _ hin] at hmet
        cases hmet
      case isFalse => rfl
    · rw [Bool.not_eq_true] at hmet
      simp only [hquote, hmet, decide_false, Bool.or_false, Bool.false_eq_true, if_false]
      have hready : s.Ready V (Form.pair r car cdr).pairs (s.elementCalls (.pair r car cdr)) :=
        ⟨hr.clean, fun c hc => hr.unmet c (mem_calls_of_element hquote hc),
          fun c hc => hr.once c (mem_calls_of_element hquote hc)⟩
      have hlt := unmet_insert (hbound r _ ht.1) hmet
      have hscan := hspine r car cdr _ ht (by omega) (hready.insert ht rfl)
      have hcalls : s.calls parent (.pair r car cdr) = s.elementCalls (.pair r car cdr) ++
          if s.isCall car.root then [⟨parent, r⟩] else [] := by
        rw [calls, if_neg hquote, elementCalls]
      rw [hcalls]
      generalize spine r (V.insert r) = result at hscan ⊢
      obtain ⟨W, found⟩ := result
      cases found with
      | some found =>
        have hfirst : some found = (s.elementCalls (.pair r car cdr)).head? := hscan.first
        refine ⟨?_, (fun h => nomatch h), fun h => nomatch h⟩
        rw [List.head?_append, ← hfirst]
        rfl
      | none =>
        have hnone : s.elementCalls (.pair r car cdr) = [] :=
          List.head?_eq_none_iff.mp hscan.first.symm
        rw [hnone, List.nil_append]
        refine ⟨by simp only; split <;> rfl, fun _ p hp => ?_, fun _ p hp => ?_⟩
        · exact hscan.grows rfl p (contains_insert_iff.mpr (Or.inr hp))
        · rcases hscan.fresh rfl p hp with hp | ⟨hp, hclean⟩
          · rcases contains_insert_iff.mp hp with rfl | hp
            · exact Or.inr ⟨List.mem_cons_self, clean_of_elementCalls ht hnone⟩
            · exact Or.inl hp
          · exact Or.inr ⟨List.mem_cons_of_mem _ hp, hclean⟩

theorem scanSpine_scanned (fuel : Nat) :
    s.ScansElements bound fuel (s.scanSpine fuel) := by
  induction fuel with
  | zero => exact fun _ _ _ _ _ hfuel => absurd hfuel (Nat.not_lt_zero _)
  | succ fuel ih =>
    intro q car cdr V ht hfuel hr
    rw [elementCalls] at hr ⊢
    have hready : s.Ready V car.pairs (s.calls (some q) car) :=
      ⟨fun p hp => hr.clean p (List.mem_append_left _ hp),
        fun c hc => hr.unmet c (List.mem_append_left _ hc),
        fun c hc => Nat.le_trans (List.Sublist.count_le _ (List.sublist_append_left _ _))
          (hr.once c (List.mem_append_left _ hc))⟩
    have hform := scanForm_scanned hbound ih ht.2.1 (by omega) hready
    simp only [scanSpine, ht.1]
    generalize s.scanForm (s.scanSpine fuel) (some q) car.root V = result at hform ⊢
    obtain ⟨W, found⟩ := result
    cases found with
    | some found =>
      have hfirst : some found = (s.calls (some q) car).head? := hform.first
      refine ⟨?_, (fun h => nomatch h), fun h => nomatch h⟩
      rw [List.head?_append, ← hfirst]
      rfl
    | none =>
      have hnone : s.calls (some q) car = [] := List.head?_eq_none_iff.mp hform.first.symm
      rw [hnone, List.nil_append]
      have hfresh : ∀ p, W.contains p = true → V.contains p = true ∨
          p ∈ car.pairs ++ cdr.pairs ∧ s.Clean p := fun p hp =>
        (hform.fresh rfl p hp).imp id (And.imp_left (List.mem_append_left _))
      have hstop : s.elementCalls cdr = [] →
          s.Scanned V (car.pairs ++ cdr.pairs) (s.elementCalls cdr) (W, none) := fun hnil => by
        rw [hnil]
        exact ⟨rfl, hform.grows, fun _ => hfresh⟩
      cases hcdr : cdr with
      | leaf r =>
        have hleaf : s.pair? r = none := (show s.Spells (.leaf r) from hcdr ▸ ht.2.2)
        simp only [Form.root_leaf, hleaf, Option.isNone_none, Bool.true_or, if_true]
        exact hcdr ▸ hstop (by rw [hcdr]; rfl)
      | pair q' car' cdr' =>
        have hpairs : cdr.pairs = q' :: (car'.pairs ++ cdr'.pairs) := by rw [hcdr]; rfl
        have htail : s.Spells (.pair q' car' cdr') := hcdr ▸ ht.2.2
        rw [← hcdr]
        simp only [show cdr.root = q' by rw [hcdr]; rfl, htail.1, Option.isNone_some,
          Bool.false_or]
        by_cases hmet : W.contains q' = true
        · rw [if_pos hmet]
          refine hstop ?_
          have hclean : s.Clean q' := (hform.fresh rfl q' hmet).elim
            (hr.clean q' (List.mem_append_right _ (hpairs ▸ List.mem_cons_self))) And.right
          rw [hcdr]
          exact hclean _ htail rfl
        · rw [if_neg hmet]
          rw [Bool.not_eq_true] at hmet
          have hlt := unmet_insert (hbound q' _ htail.1) hmet
          have hle := @Scanned.unmet_le _ _ _ _ _ bound hform
          have hready' : s.Ready W (Form.pair q' car' cdr').pairs
              (s.elementCalls (.pair q' car' cdr')) := by
            rw [← hcdr]
            refine ⟨fun p hp hW => ?_, fun c hc => Bool.eq_false_iff.mpr fun hW => ?_, fun c hc => ?_⟩
            · exact (hform.fresh rfl p hW).elim (hr.clean p (List.mem_append_right _ hp)) And.right
            · -- a call of the rest that was met before would stand in the form twice
              rcases hform.fresh rfl _ hW with hV | ⟨hin, -⟩
              · rw [hr.unmet c (List.mem_append_right _ hc)] at hV
                cases hV
              · have honce := hr.once c (List.mem_append_right _ hc)
                rw [List.count_append] at honce
                have h₁ := List.count_pos_iff.mpr hin
                have h₂ := List.count_pos_iff.mpr ((call_mem_pairs cdr).2 c hc)
                omega
            · exact Nat.le_trans (List.Sublist.count_le _ (List.sublist_append_right _ _))
                (hr.once c (List.mem_append_right _ hc))
          have hscan := ih q' car' cdr' _ htail (by omega) (hready'.insert htail rfl)
          rw [hcdr]
          refine ⟨hscan.first, fun hres p hp => ?_, fun hres p hp => ?_⟩
          · exact hscan.grows hres p (contains_insert_iff.mpr (Or.inr (hform.grows rfl p hp)))
          · rcases hscan.fresh hres p hp with hp | ⟨hp, hclean⟩
            · rcases contains_insert_iff.mp hp with rfl | hp
              · have hnil : s.elementCalls (.pair p car' cdr') = [] :=
                  List.head?_eq_none_iff.mp (hscan.first.symm.trans hres)
                exact Or.inr ⟨List.mem_append_right _ List.mem_cons_self,
                  clean_of_elementCalls htail hnil⟩
              · exact hcdr ▸ hfresh p hp
            · exact Or.inr ⟨List.mem_append_right _ (List.mem_cons_of_mem _ hp), hclean⟩

/-- A scan finds the first of the calls in a form in which each call stands once. -/
theorem findCall_eq_head? (hfuel : bound ≤ fuel) (ht : s.Spells t)
    (honce : ∀ c ∈ s.calls none t, t.pairs.count c.call ≤ 1) :
    s.findCall fuel t.root = (s.calls none t).head? := by
  have hempty : ∀ p, ¬ (∅ : Std.HashSet Nat).contains p = true := fun p => by
    rw [Std.HashSet.contains_empty]
    exact Bool.false_ne_true
  have hle : unmet bound ∅ ≤ fuel := by
    unfold unmet
    refine Nat.le_trans (List.countP_le_length) ?_
    rwa [List.length_range]
  exact (scanForm_scanned hbound (scanSpine_scanned hbound fuel) ht hle
    ⟨fun p _ hp => absurd hp (hempty p), fun c _ => Std.HashSet.contains_empty, honce⟩).first

end

end Surface

namespace Machine

variable {m : Machine} {t : Form} {r : Nat}

theorem pair?_eq {car cdr : Nat} :
    m.surface.pair? r = some (car, cdr) ↔ m.heap.object r = .pair car cdr := by
  change (m.heap.object r).pair? = _ ↔ _
  cases m.heap.object r <;> simp [Object.pair?]

theorem findCall_of_distinct (ht : m.surface.Spells t) (hdistinct : t.pairs.Nodup) :
    m.findCall t.root = (m.surface.calls none t).head? := by
  rw [findCall_eq]
  have hbound : ∀ r c, m.surface.pair? r = some c → r < m.heap.capacity := fun r c hr =>
    lt_capacity_of_pair (pair?_eq.mp hr)
  exact Surface.findCall_eq_head? hbound (Nat.le_succ _) ht
    fun c _ => List.nodup_iff_count.mp hdistinct c.call

end Machine

end ArenaScheme
