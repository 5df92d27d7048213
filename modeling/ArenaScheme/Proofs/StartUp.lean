import ArenaScheme.Session
import ArenaScheme.Proofs.Fences
import ArenaScheme.Proofs.Success

/-! Machines start alike. While a heap is furnished all its records are pinned, so records that
correspond stand at the same position, whatever the size of the heap. -/

namespace ArenaScheme

open Memory Heap

variable {h : Heap} {n r size : Nat} {globals : Ref} {v : View}

/-- A heap that holds nothing but the singletons. -/
structure Heap.Blank (h : Heap) : Prop where
  sound : h.Sound Rules.strict
  records : ∀ r ∈ h.records, ∃ p ∈ fixtures, p.1 = r
  roots : h.roots = #[]
  symbols : h.symbols = absent
  pinning : h.pinning = true

theorem Heap.Blank.kind_ne (hb : h.Blank) (hr : r ∈ h.records) {kind : Kind}
    (hkind : ∀ p ∈ fixtures, p.2 ≠ kind) : h.memory.kind r ≠ kind := by
  obtain ⟨p, hp, rfl⟩ := hb.records r hr
  rw [(hb.sound.fixture p hp).2.1]
  exact hkind p hp

theorem Heap.Blank.tidy (hb : h.Blank) : h.Tidy where
  table := ⟨[], hb.symbols ▸ .empty, .nil, fun _ => ⟨(fun hr => nomatch hr), fun ⟨hr, hk⟩ =>
    absurd hk (hb.kind_ne hr (by decide))⟩⟩
  scope _ hf hk := absurd hk (hb.kind_ne hf (by decide))
  apart _ hf _ _ hk := absurd hk (hb.kind_ne hf (by decide))
  bindable _ _ hr hk := absurd hk (hb.kind_ne hr (by decide))

/-- Two heaps of which only the singletons correspond. -/
def View.blank (h h' : Heap) : View where
  rules := Rules.strict
  left := h
  right := h'
  rel a b := (∃ p ∈ fixtures, p.1 = a) ∧ a = b
  guard := none
  may := Effect.Tame

theorem Later.named {w : View} (h : Later n v w) (ht : v.left.Indexed) {name : String}
    (hr : v.left.Named r name) : w.left.Named r name :=
  h.evolves.named ht hr

theorem Keywords.symbols_eq (k : Keywords) : k.symbols = k.named.map Prod.fst := by
  simp [symbols, named, List.map_map, Function.comp_def]

/-! What furnishing costs. -/

def keywordsCost : Nat :=
  (SpecialForm.all.map (symbolCost ·.name)).sum + (symbolCost "quote" + (symbolCost "quasiquote" +
    (symbolCost "unquote" + (symbolCost "begin" + (symbolCost "lambda" + (symbolCost "defmacro" +
      (symbolCost "." + (symbolCost "undefined" + 0))))))))

/-- A symbol, the procedure and a binding. -/
def builtinCost (name : String) : Nat := symbolCost name + (fieldsSize 2 + (fieldsSize 4 + 0))

def furnishCost : Nat :=
  keywordsCost + (fieldsSize 2 + (fieldsSize 2 + ((Primitive.all.map (builtinCost ·.name)).sum + 0)))

/-- What a heap holds when a machine starts: all trees are in order, and there is a fence around the
names of transformers. -/
structure Equipped (h : Heap) (keywords : Keywords) (transformers : Ref) : Prop where
  tidy : h.Tidy
  fenced : ∃ own, h.Fenced transformers own
  named : ∀ p ∈ keywords.named, h.Named p.1 p.2
  forms : keywords.forms.map Prod.snd = SpecialForm.all
  top_le : h.top ≤ 20 + furnishCost

theorem Equipped.withPinning {keywords : Keywords} {transformers : Ref}
    (he : Equipped h keywords transformers) (pinning : Bool) :
    Equipped { h with pinning } keywords transformers where
  tidy := by
    obtain ⟨rs, htable⟩ := he.tidy.table
    exact ⟨⟨rs, htable.tree, htable.sorted, htable.mem_iff⟩,
      fun f hf hk _ => (he.tidy.scope f hf hk trivial).imp fun bs hb =>
        ⟨hb.tree, hb.sorted, hb.mem, hb.symbol⟩,
      fun f hf f' hf' hk hk' _ _ hne bs cs hb hc => he.tidy.apart f hf f' hf' hk hk' trivial trivial
        hne bs cs ⟨hb.tree, hb.sorted, hb.mem, hb.symbol⟩ ⟨hc.tree, hc.sorted, hc.mem, hc.symbol⟩,
      fun hall b hb hk => ⟨(he.tidy.bindable hall b hb hk).kind, (he.tidy.bindable hall b hb hk).free⟩⟩
  fenced := he.fenced.imp fun _ hf => ⟨hf.root, hf.link, fun b hb hk hnot =>
    ⟨(hf.key b hb hk hnot).kind, (hf.key b hb hk hnot).free⟩⟩
  named := he.named
  forms := he.forms
  top_le := he.top_le

/-- Nothing is guarded, and the procedure may be added. -/
theorem Agrees.defineBuiltin {globals : Nat} (hv : Corr v) (ho : v.Ordered) (hfree : v.guard = none)
    (hmay : ∀ effect, effect.Tame → v.may effect) (hn : n ≤ v.left.roots.size)
    (hglobals : v.left.Permanent .environment globals) (name : String) (index : Nat)
    (hindex : v.may (.procedure index)) :
    Agrees n v View.Rel (Machine.defineBuiltin globals name index)
      (Machine.defineBuiltin globals name index) := by
  have hclear : ∀ {w : View} {i : Nat}, w.guard = v.guard → w.guard ≠ some i := fun hw heq => by
    rw [hw, hfree] at heq
    cases heq
  refine (internWith hv hn _ name (hmay _ trivial)).bind fun v₁ symbol _ hv₁ hl₁ hsymbol => ?_
  refine pushRoot_bind hv₁ hl₁.size hsymbol.rel fun v₂ h₂ => ?_
  have hsize₂ := h₂.size
  have hslot := hl₁.size
  have hg₂ := h₂.guard.trans hl₁.guard
  refine root_bind h₂.corr (hclear hg₂) fun hname => ?_
  have hindex₂ : v₂.may (.procedure index) := by
    rw [h₂.may, hl₁.may]
    exact hindex
  refine (builtin h₂.corr (by omega) hname index hindex₂).bind fun v₃ procedure _ hv₃ hl₃ hprocedure => ?_
  refine pushRoot_bind hv₃ hl₃.size hprocedure.rel fun v₄ h₄ => ?_
  have hsize₄ := h₄.size
  have hn₃ := hl₃.size
  have hg₄ := h₄.guard.trans (hl₃.guard.trans hg₂)
  refine root_bind h₄.corr (hclear hg₄) fun hname => root_bind h₄.corr (hclear hg₄) fun hvalue => ?_
  have hframe : v₄.left.Permanent .environment globals :=
    h₄.permanent (hl₃.permanent (h₂.permanent (hl₁.permanent hglobals)))
  have ho₄ : v₄.Ordered := h₄.ordered (hl₃.ordered (h₂.ordered (hl₁.ordered ho)))
  have hmay₄ : v₄.may .bind := by
    rw [h₄.may, hl₃.may, h₂.may, hl₁.may]
    exact hmay _ trivial
  refine (define h₄.corr ho₄ (by omega) hmay₄ (h₄.corr.rel_permanent hframe (by decide)) hname
    hvalue).attempt.bind fun v₅ outcome _ hv₅ hl₅ halike => ?_
  have hg₅ := hl₅.guard.trans hg₄
  refine root_bind hv₅ (hclear hg₅) fun hresult => ?_
  refine releaseRoots_bind hv₅ hl₅.size hslot (fun s hs => absurd hs (hclear hg₅)) fun v₆ h₆ => ?_
  have hsize₆ := h₆.size
  have hn₅ := hl₅.size
  cases halike with
  | ok _ => exact pure h₆.corr (by omega) (h₆.rel _ _ hresult)
  | error fault hfault => exact throw h₆.corr (by omega) hfault

/-- The heaps of `v` are being furnished. -/
structure Furnished (v : View) : Prop extends Corr v where
  rules : v.rules = Rules.strict
  free : v.guard = none
  may : ∀ effect, effect.Tame → v.may effect
  pinning : v.left.pinning = true
  tidy : v.left.Tidy

namespace Furnished

variable {v w : View} {n a b rest : Nat} {kind : Kind} {γ δ : Type}
  {last : View → γ → δ → Prop}

section

variable (hv : Furnished v)
include hv

theorem later (hw : Corr w) (hlater : Later n v w) : Furnished w :=
  ⟨hw, hlater.rules.trans hv.rules, hlater.guard.trans hv.free, hlater.may ▸ hv.may,
    hlater.evolves.pinning.trans hv.pinning,
    hlater.evolves.tidy (congrArg Rules.table hv.rules) hv.tidy⟩

theorem indexed : v.left.Indexed := hv.tidy.table

theorem unguarded (i : Nat) : v.guard ≠ some i := by
  rw [hv.free]
  exact fun h => nomatch h

/-- All records are pinned, so that each stands for itself. -/
theorem permanent (hab : v.Rel a b) (hk : v.left.memory.kind a = kind) :
    a = b ∧ v.left.Permanent kind a := by
  have hmem := hv.mem_left hab.1
  have hpin := hv.left.pinning hv.pinning a hmem
  have hself := hv.iso.pinned_left a hmem hpin
  exact ⟨(hv.iso.eq_iff hself hab.1).mp rfl, hmem, hpin, hk⟩

theorem rooted (hr : Rooted v w) : Furnished w := by
  refine ⟨hr.corr, hr.rules.trans hv.rules, hr.guard.trans hv.free, hr.may ▸ hv.may, ?_, ?_⟩
  · rw [hr.left]
    exact hv.pinning
  · rw [hr.left]
    exact hv.tidy.withRoots _

theorem intern (hn : n ≤ v.left.roots.size) (name : String)
    (hroom : v.left.top + symbolCost name ≤ maxSize) :
    Completes n (symbolCost name) v (fun w a b => a = b ∧ w.left.Named a name)
      (HeapM.intern name) (HeapM.intern name) := by
  have hinterns := HeapM.interns hv.left Text.digest name
  have hagrees := (Agrees.internWith hv.toCorr hn _ name (hv.may _ trivial)).and_left
    fun r g hrun => (hrun ▸ hinterns).nameBytes hv.left hv.indexed
  refine .of_agrees (.intern name) (hagrees.mono (Nat.le_refl _) fun w a b hw hlater hpost => ?_)
    ⟨(fun _ hr => nomatch hr), (fun _ hr => nomatch hr), Nat.zero_le _⟩ rfl (hinterns.exists_ok hroom)
  obtain ⟨heq, ha⟩ := (hv.later hw hlater).permanent hpost.1.rel hpost.1.kind_eq
  exact ⟨heq, ha, hpost.2⟩

theorem intern_bind {f : Ref → HeapM γ} {g : Ref → HeapM δ} (name : String)
    {known : List (Ref × String)} (hknown : ∀ p ∈ known, v.left.Named p.1 p.2)
    (hroom : v.left.top + (symbolCost name + rest) ≤ maxSize)
    (h : ∀ w r, Furnished w → (∀ p ∈ known ++ [(r, name)], w.left.Named p.1 p.2) →
      w.left.top + rest ≤ maxSize → Completes 0 rest w last (f r) (g r)) :
    Completes 0 (symbolCost name + rest) v last (HeapM.intern name >>= f)
      (HeapM.intern name >>= g) := by
  refine (hv.intern (Nat.zero_le _) name (by omega)).bind (Nat.le_refl _)
    fun w r _ hw hlater htop ⟨heq, hr⟩ => ?_
  subst heq
  refine h w r (hv.later hw hlater) (fun p hp => ?_) (by omega)
  rcases List.mem_append.mp hp with hp | hp
  · exact hlater.named hv.indexed (hknown p hp)
  · obtain rfl := List.mem_singleton.mp hp
    exact hr

end

/-- The symbols of the special forms. -/
theorem internForms (forms : List SpecialForm) (hv : Furnished v)
    (hroom : v.left.top + (forms.map (symbolCost ·.name)).sum ≤ maxSize) :
    Completes 0 (forms.map (symbolCost ·.name)).sum v
      (fun w xs ys => xs = ys ∧ xs.map Prod.snd = forms ∧ ∀ p ∈ xs, w.left.Named p.1 p.2.name)
      (forms.mapM fun form => return (← HeapM.intern form.name, form))
      (forms.mapM fun form => return (← HeapM.intern form.name, form)) := by
  induction forms generalizing v with
  | nil =>
    rw [List.mapM_nil]
    exact .pure hv.toCorr (Nat.zero_le _) ⟨rfl, rfl, fun r hr => nomatch hr⟩
  | cons form forms ih =>
    rw [List.mapM_cons]
    rw [List.map_cons, List.sum_cons] at hroom ⊢
    simp only [bind_assoc, pure_bind]
    have hnone : ∀ p ∈ ([] : List (Ref × String)), v.left.Named p.1 p.2 := fun p hp => nomatch hp
    refine hv.intern_bind form.name hnone hroom fun w r hw hr hroom => ?_
    refine (ih hw hroom).bind_free (Nat.le_refl _) fun u xs ys hu hlater _ ⟨heq, hall, hxs⟩ => ?_
    subst heq
    refine .pure hu hlater.size ⟨rfl, congrArg (form :: ·) hall, fun p hp => ?_⟩
    rcases List.mem_cons.mp hp with rfl | hp
    · exact hlater.named hw.indexed (hr (r, form.name) (.head _))
    · exact hxs p hp

theorem keywords (hv : Furnished v) (hroom : v.left.top + keywordsCost ≤ maxSize) :
    Completes 0 keywordsCost v
      (fun w k k' => k = k' ∧ k.forms.map Prod.snd = SpecialForm.all ∧
        ∀ p ∈ k.named, w.left.Named p.1 p.2)
      Keywords.intern Keywords.intern := by
  unfold keywordsCost at hroom ⊢
  refine (internForms SpecialForm.all hv (by omega)).bind (Nat.le_refl _)
    fun w forms forms' hw hlater htop ⟨heq, hall, hforms⟩ => ?_
  subst heq
  have hknown : ∀ p ∈ forms.map fun form => (form.1, form.2.name), w.left.Named p.1 p.2 :=
    List.forall_mem_map.mpr hforms
  refine (hv.later hw hlater).intern_bind "quote" hknown (by omega)
    fun w quote hw hknown hroom => ?_
  refine hw.intern_bind "quasiquote" hknown hroom fun w quasiquote hw hknown hroom => ?_
  refine hw.intern_bind "unquote" hknown hroom fun w unquote hw hknown hroom => ?_
  refine hw.intern_bind "begin" hknown hroom fun w begin hw hknown hroom => ?_
  refine hw.intern_bind "lambda" hknown hroom fun w lambda hw hknown hroom => ?_
  refine hw.intern_bind "defmacro" hknown hroom fun w defineTransformer hw hknown hroom => ?_
  refine hw.intern_bind "." hknown hroom fun w dot hw hknown hroom => ?_
  refine hw.intern_bind "undefined" hknown hroom fun w undefined hw hknown _ => ?_
  refine .pure hw.toCorr (Nat.zero_le _) ⟨rfl, hall, fun p hp => hknown p ?_⟩
  simpa [Keywords.named] using hp

/-- A new frame, which is empty. -/
theorem environment (hv : Furnished v) (hroom : v.left.top + fieldsSize 2 ≤ maxSize) :
    Completes 0 (fieldsSize 2) v
      (fun w a b => a = b ∧ w.left.Permanent .environment a ∧ w.left.memory.field a 1 = absent)
      (HeapM.environment none) (HeapM.environment none) := by
  have hmakes := @HeapM.makes_environment _ _ hv.left none fun r hr => nomatch hr
  have hempty : ∀ r g, HeapM.environment none v.left = .ok r g → g.memory.field r 1 = absent := by
    intro r g hrun
    rw [hrun] at hmakes
    cases hmakes with
    | ok hr _ hm => exact hm.field_environment (hv.left.relocate hr)
  have hagrees := Agrees.environment (n := 0) hv.toCorr (Nat.zero_le _) .none fun r hr => nomatch hr
  refine .of_agrees (.environment none) ((hagrees.and_left hempty).mono (Nat.le_refl _)
    fun w r s hw hlater ⟨hmade, hnone⟩ => ?_)
    ⟨(fun _ hr => nomatch hr), (fun _ hr => nomatch hr), Nat.zero_le _⟩ rfl (hmakes.exists_ok hroom)
  obtain ⟨heq, hr⟩ := (hv.later hw hlater).permanent hmade.rel hmade.kind_eq
  exact ⟨heq, hr, hnone⟩

/-- A name that is not reserved can be given to a builtin procedure. -/
theorem defineBuiltin (hv : Furnished v) (hglobals : v.left.Permanent .environment globals)
    (name : String) (index : Nat) (hindex : index < Primitive.table.size)
    (hname : isReserved name = false) (hroom : v.left.top + builtinCost name ≤ maxSize) :
    Completes 0 (builtinCost name) v (fun _ _ _ => True) (Machine.defineBuiltin globals name index)
      (Machine.defineBuiltin globals name index) := by
  unfold builtinCost at hroom ⊢
  refine (hv.intern (Nat.le_refl _) name (by omega)).bind (Nat.zero_le _)
    fun v₁ symbol _ hv₁ hl₁ htop₁ ⟨heq, hsymbol⟩ => ?_
  subst heq
  have hf₁ := hv.later hv₁ hl₁
  refine .pushRoot_bind hv₁ (Nat.zero_le _) (hv₁.rel_permanent hsymbol.1 (by decide))
    fun v₂ h₂ => ?_
  have hf₂ := hf₁.rooted h₂.toRooted
  have htop₂ : v₂.left.top = v₁.left.top := by rw [h₂.left]
  refine .root_bind hf₂.toCorr (hf₂.unguarded _) fun hrel => ?_
  have hmakes := HeapM.makes_builtin hf₂.left (hf₂.mem_left hrel.1) index
  refine (Completes.of_agrees (.builtin _ index)
    (Agrees.builtin hf₂.toCorr (Nat.le_refl _) hrel index (hf₂.may _ hindex))
    ⟨List.forall_mem_singleton.mpr (hf₂.mem_left hrel.1), (fun _ hr => nomatch hr), Nat.zero_le _⟩ rfl
    (hmakes.exists_ok (by omega))).bind (Nat.zero_le _) fun v₃ procedure _ hv₃ hl₃ htop₃ hmade => ?_
  have hf₃ := hf₂.later hv₃ hl₃
  -- the symbol is still in its slot
  have hslot : v₁.left.roots.size < v₂.left.roots.size := by rw [h₂.size]; exact Nat.lt_succ_self _
  obtain ⟨hkind₃, hname₃⟩ := hl₃.evolves.symbol_root hf₂.indexed hslot
    (h₂.root_self ▸ (h₂.permanent hsymbol.1).2.2)
  have hname₂ : v₂.left.nameBytes symbol = name.toUTF8.toList := by
    rw [h₂.left]
    exact hsymbol.2
  rw [h₂.root_self, hname₂] at hname₃
  refine .pushRoot_bind hv₃ (Nat.zero_le _) hmade.rel fun v₄ h₄ => ?_
  have hf₄ := hf₃.rooted h₄.toRooted
  have htop₄ : v₄.left.top = v₃.left.top := by rw [h₄.left]
  have hroot₄ := h₄.root_eq (Nat.ne_of_lt (Nat.lt_of_lt_of_le hslot hl₃.size))
  have hbindable : v₄.left.Bindable (v₄.left.root v₁.left.roots.size) := by
    refine ⟨(h₄.kind _).trans (hroot₄ ▸ hkind₃), ?_⟩
    rw [hroot₄, h₄.left]
    exact (congrArg (isReserved <| Text.decode ·) hname₃).trans ((Text.decode_toUTF8 name).symm ▸ hname)
  refine .root_bind hf₄.toCorr (hf₄.unguarded _) fun hkey => ?_
  refine .root_bind hf₄.toCorr (hf₄.unguarded _) fun hvalue => ?_
  have hframe : v₄.left.Permanent .environment globals :=
    h₄.permanent (hl₃.permanent (h₂.permanent (hl₁.permanent hglobals)))
  have hdefine := Agrees.define hf₄.toCorr (.of_none (by rw [hf₄.rules]; rfl)) (Nat.le_refl _)
    (hf₄.may _ trivial) (hf₄.rel_permanent hframe (by decide)) hkey hvalue
  have hvalid : (HeapOp.define globals (v₄.left.root v₁.left.roots.size)
      (v₄.left.root v₃.left.roots.size)).Valid v₄.left :=
    ⟨by simpa [HeapOp.refs] using ⟨hframe.1, hf₄.mem_left hkey.1, hf₄.mem_left hvalue.1⟩,
      (fun _ hr => nomatch hr), Nat.zero_le _⟩
  refine (Completes.of_agrees _ hdefine hvalid rfl ⟨(), hf₄.left.define_ok hframe
    (hf₄.mem_left hkey.1) hbindable (hf₄.mem_left hvalue.1) (by omega)⟩).attempt.bind
    (Nat.zero_le _) ?_
  rintro v₅ _ _ hv₅ hl₅ - ⟨_, _, -, rfl, rfl⟩
  have hf₅ := hf₄.later hv₅ hl₅
  refine .root_bind hv₅ (hf₅.unguarded _) fun _ => ?_
  have hsize₅ : v₁.left.roots.size ≤ v₅.left.roots.size := by
    have hsize₃ := hl₃.size
    have hsize₄ := h₄.size
    have hsize₅ := hl₅.size
    omega
  refine .releaseRoots_bind hv₅ (Nat.zero_le _) (Nat.zero_le _) hsize₅
    (fun s hs => absurd hs (hf₅.unguarded s)) fun v₆ h₆ => ?_
  exact .pure h₆.corr (Nat.zero_le _) trivial

theorem defineBuiltins (primitives : List Primitive) (index : Nat) (hv : Furnished v)
    (hglobals : v.left.Permanent .environment globals)
    (hcount : index + primitives.length ≤ Primitive.table.size)
    (hnames : ∀ p ∈ primitives, isReserved p.name = false)
    (hroom : v.left.top + (primitives.map (builtinCost ·.name)).sum ≤ maxSize) :
    Completes 0 (primitives.map (builtinCost ·.name)).sum v (fun _ _ _ => True)
      (Machine.defineBuiltins globals primitives index)
      (Machine.defineBuiltins globals primitives index) := by
  induction primitives generalizing v index with
  | nil => exact .pure hv.toCorr (Nat.zero_le _) trivial
  | cons primitive primitives ih =>
    rw [List.map_cons, List.sum_cons] at hroom ⊢
    rw [List.length_cons] at hcount
    refine (hv.defineBuiltin hglobals primitive.name index (by omega) (hnames _ (.head _))
      (by omega)).bind
      (Nat.le_refl _) fun w _ _ hw hlater htop _ => ?_
    exact ih (index + 1) (hv.later hw hlater) (hlater.permanent hglobals) (by omega)
      (fun p hp => hnames p (.tail _ hp)) (by omega)

/-- There is a fence around an empty frame. -/
theorem fenced (hv : Furnished v) (hempty : v.left.memory.field a 1 = absent) :
    v.left.Fenced a fun _ => False where
  root _ _ _ hne := ⟨False.elim, fun heq => absurd (heq ▸ hempty) hne⟩
  link _ _ _ _ _ _ := Iff.rfl
  key b hb hk _ := hv.tidy.bindable trivial b hb hk

/-- What a machine remembers stands at the same positions, and it is pinned. -/
theorem furnish (hv : Furnished v) (hnew : v.left.top = 20) :
    Completes 0 furnishCost v
      (fun w p q => p = q ∧ Equipped w.left p.1 p.2.2 ∧ w.left.Permanent .environment p.2.1 ∧
        w.left.Permanent .environment p.2.2)
      Machine.furnish Machine.furnish := by
  have hroom : 20 + furnishCost ≤ maxSize := by decide
  unfold furnishCost at hroom ⊢
  refine (hv.keywords (by omega)).bind (Nat.le_refl _)
    fun w keywords _ hw hlater htop ⟨heq, hforms, hsymbols⟩ => ?_
  subst heq
  have hw := hv.later hw hlater
  refine (hw.environment (by omega)).bind (Nat.le_refl _)
    fun u globals _ hu hlater htop ⟨heq, hglobals, _⟩ => ?_
  subst heq
  have hsymbols := fun r hr => hlater.named hw.indexed (hsymbols r hr)
  have hu := hw.later hu hlater
  refine (hu.environment (by omega)).bind (Nat.le_refl _)
    fun w transformers _ hw hlater htop ⟨heq, htransformers, hempty⟩ => ?_
  subst heq
  have hsymbols := fun r hr => hlater.named hu.indexed (hsymbols r hr)
  have hglobals := hlater.permanent hglobals
  have hw := hu.later hw hlater
  refine (hw.defineBuiltins Primitive.all 0 hglobals (Nat.le_of_eq (by rw [Nat.zero_add]; rfl)) (by decide)
    (by omega)).bind_free
    (Nat.le_refl _) fun u _ _ hu hlater htop _ => ?_
  have hrules : ∀ t, w.rules.table = some t → t = transformers := fun t ht => by
    rw [hw.rules] at ht
    cases ht
  have hfenced := hlater.evolves.fenced hw.indexed hrules htransformers.1 htransformers.2.1
    ⟨_, hw.fenced hempty⟩
  exact .pure hu (Nat.zero_le _) ⟨rfl, ⟨(hw.later hu hlater).tidy, hfenced,
    fun r hr => hlater.named hw.indexed (hsymbols r hr), hforms, by unfold furnishCost; omega⟩,
    hlater.permanent hglobals, hlater.permanent htransformers⟩

end Furnished

theorem Heap.Sound.blank (hs : h.Sound Rules.strict)
    (hrecords : ∀ r ∈ h.records, ∃ p ∈ fixtures, p.1 = r) (hroots : h.roots = #[])
    (hsymbols : h.symbols = absent) : { h with pinning := true }.Blank where
  sound := hs.withPinning true fun _ r hr => by
    obtain ⟨p, hp, rfl⟩ := hrecords r hr
    exact (hs.fixture p hp).2.2
  records := hrecords
  roots := hroots
  symbols := hsymbols
  pinning := rfl

theorem blank_new (hsize : size ≤ maxSize) : { Heap.new size with pinning := true }.Blank :=
  (Sound.new hsize Rules.strict).blank (fun _ => mem_records_new) rfl rfl

/-- The singletons of two heaps stand for each other. -/
theorem furnished_blank {h' : Heap} (hb : h.Blank) (hb' : h'.Blank) :
    Furnished (View.blank h h') := by
  have hfixture := hb.sound.fixture
  have hfixture' := hb'.sound.fixture
  have hroots : h.roots.size = h'.roots.size := by rw [hb.roots, hb'.roots]
  refine ⟨⟨hb.sound, hb'.sound, ⟨?_, ?_, ?_, ?_, hroots, ?_, Or.inl ⟨hb.symbols, hb'.symbols⟩, ?_, ?_,
    hb.pinning.trans hb'.pinning.symm⟩, fun s hs => nomatch hs⟩, rfl, rfl, fun _ h => h,
    hb.pinning, hb.tidy⟩
  · rintro a b ⟨⟨p, hp, rfl⟩, rfl⟩
    exact (hfixture p hp).1
  · rintro a b ⟨⟨p, hp, rfl⟩, rfl⟩
    exact (hfixture' p hp).1
  · rintro a _ c _ ⟨-, rfl⟩ ⟨-, rfl⟩
    rfl
  · rintro a _ ⟨⟨p, hp, rfl⟩, rfl⟩
    obtain ⟨-, hk, hpin⟩ := hfixture p hp
    obtain ⟨-, hk', hpin'⟩ := hfixture' p hp
    obtain ⟨hextent, href⟩ := extent_of_fixture hp hk
    refine ⟨hk'.trans hk.symm, hpin'.trans hpin.symm, fun i hlow hi => ?_, fun k hk => ?_⟩
    · change i < h.memory.extent p.1 at hi
      omega
    · change k ∈ h.memory.referenceFields p.1 at hk
      rw [href] at hk
      cases hk
  · intro i hi
    change i < h.roots.size at hi
    rw [hb.roots] at hi
    exact absurd hi (Nat.not_lt_zero i)
  · exact fun r hr _ => ⟨hb.records r hr, rfl⟩
  · exact fun r hr _ => ⟨hb'.records r hr, rfl⟩

namespace Machine

theorem startUp_eq (h : Heap) :
    startUp h = match furnish { h with pinning := true } with
      | .ok fixed g => .ok fixed { g with pinning := false }
      | .error fault g => .error fault g := by
  change EStateM.bind furnish _ _ = _
  unfold EStateM.bind
  cases furnish { h with pinning := true } <;> rfl

/-- Machines of any two sizes start, and they start alike. -/
theorem start_alike {size' : Nat} (hsize : size ≤ maxSize) (hsize' : size' ≤ maxSize) :
    ∃ m v, Stands Effect.Tame m v ∧ v.guard = none ∧ v.rules = Rules.strict ∧
      Equipped v.left m.keywords m.transformers ∧
      start size = .ok (m.on v.left "") ∧ start size' = .ok (m.on v.right "") := by
  obtain ⟨w, p, _, hw, hlater, -, -, ⟨heq, hequipped, hglobals, htransformers⟩, hrun, hrun'⟩ :=
    (furnished_blank (blank_new hsize) (blank_new hsize')).furnish rfl
  subst heq
  change furnish { Heap.new size with pinning := true } = .ok p w.left at hrun
  change furnish { Heap.new size' with pinning := true } = .ok p w.right at hrun'
  have hfree : w.guard = none := hlater.guard
  have hrules : w.rules = Rules.strict := hlater.rules
  refine ⟨⟨w.left, p.1, p.2.1, p.2.2, #[], "", false⟩,
    { w with
      left := { w.left with pinning := false }, right := { w.right with pinning := false } },
    ⟨⟨hw.left.withPinning false (fun h => nomatch h),
      hw.right.withPinning false (fun h => nomatch h), { hw.iso with pinning := rfl },
      fun s hs => ?_⟩, .of_none ?_, ?_, fun t ht => ?_, fun _ => rfl, fun effect => ?_, hglobals,
      htransformers, fun r hr => ?_, fun hloose => absurd (congrArg Rules.table hrules) hloose⟩, hfree,
      hrules, hequipped.withPinning false, ?_, ?_⟩
  · exact absurd (hfree.symm.trans hs) (fun h => nomatch h)
  · exact congrArg Rules.table hrules
  · exact congrArg Rules.closures hrules
  · exact absurd ((congrArg Rules.table hrules).symm.trans ht) (fun h => nomatch h)
  · rw [show w.may = Effect.Tame from hlater.may]
    exact Or.rec Effect.Plain.tame id
  · rw [Keywords.symbols_eq] at hr
    obtain ⟨p, hp, rfl⟩ := List.mem_map.mp hr
    exact (hequipped.named p hp).1
  · unfold start
    rw [startUp_eq, hrun]
  · unfold start
    rw [startUp_eq, hrun']

end Machine

end ArenaScheme
