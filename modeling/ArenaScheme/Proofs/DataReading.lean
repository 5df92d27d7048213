import ArenaScheme.Proofs.Constructing
import ArenaScheme.Proofs.Machines
import ArenaScheme.Proofs.Parsing

/-! Reading into the heap goes as parsing goes. An open form on the heap has its elements on the
root stack, where they show what the parser has collected for the form. So each token leads to the
same progress or to the same fault, as long as there is memory. -/

namespace ArenaScheme

open Memory Heap

variable {items : List Datum} {tail : Ref}

/-- A heap that can be read into. -/
structure Heap.Legible (rules : Rules) (k : Keywords) (h : Heap) : Prop where
  sound : h.Sound rules
  orderly : h.Orderly rules
  indexed : h.Indexed
  named : ∀ p ∈ k.named, h.Named p.1 p.2

/-- How a computation on the heap ends that follows one on data: with what corresponds, with the
same fault, or for want of memory. Memory is then exhausted, unless the result would not fit. -/
inductive Follows (rules : Rules) (n : Nat) (h : Heap) {α β : Type} (fit : β → Prop)
    (post : Heap → α → β → Prop) : EStateM.Result Fault Heap α → Except Fault β → Prop
  | ok {a : α} {b : β} {g : Heap} : Evolves rules n Effect.IsAddition h g → post g a b →
    Follows rules n h fit post (.ok a g) (.ok b)
  | error {fault : Fault} {g : Heap} : Evolves rules n Effect.IsAddition h g →
    Follows rules n h fit post (.error fault g) (.error fault)
  | memory {fault : Fault} {g : Heap} {p : Except Fault β} : Evolves rules n Effect.IsAddition h g →
    fault.isMemory = true → (∀ b, p = .ok b → fit b → fault.isHeapExhausted = true) →
    Follows rules n h fit post (.error fault g) p

/-- A value that shows a datum, on a heap with `count` roots. It is the dot just if the datum is. -/
structure Given (k : Keywords) (count : Nat) (h : Heap) (r : Ref) (d : Datum) : Prop where
  mem : r ∈ h.records
  shows : h.Shows r d
  height : h.roots.size = count
  dot : r = k.dot ↔ d.isDot = true

/-- The roots from `base` on show the items. -/
def Heap.Standing (h : Heap) (base : Nat) (items : List Datum) : Prop :=
  ∀ i (hi : i < items.length), h.Shows (h.root (base + i)) items[i]

/-- The same forms are open on the heap and in the parser. With them there are `count` roots, of
which the first `n` are not theirs. -/
inductive Opens (k : Keywords) (h : Heap) (n : Nat) : Nat → List OpenForm → List OpenDatum → Prop
  | nil : Opens k h n n [] []
  | quoted {count : Nat} {mark : QuoteMark} {outer : List OpenForm} {outer' : List OpenDatum} :
    Opens k h n count outer outer' →
    Opens k h n count (.quoted (k.ofMark mark) :: outer) (.quoted mark :: outer')
  | list {count base : Nat} {items : List Datum} {outer : List OpenForm}
    {outer' : List OpenDatum} : count = base + items.length → h.Standing base items →
    Opens k h n base outer outer' →
    Opens k h n count (.list base :: outer) (.list items :: outer')
  | dotted {count base : Nat} {items : List Datum} {outer : List OpenForm}
    {outer' : List OpenDatum} : count = base + items.length → items ≠ [] → h.Standing base items →
    Opens k h n base outer outer' →
    Opens k h n count (.dotted base :: outer) (.dotted items :: outer')
  | tailed {count base slot : Nat} {items : List Datum} {tail : Datum} {outer : List OpenForm}
    {outer' : List OpenDatum} : slot = base + items.length → count = slot + 1 → items ≠ [] →
    h.Standing base (items ++ [tail]) → Opens k h n base outer outer' →
    Opens k h n count (.tailed base slot :: outer) (.tailed items tail :: outer')
  | vector {count base : Nat} {items : List Datum} {outer : List OpenForm}
    {outer' : List OpenDatum} : count = base + items.length → h.Standing base items →
    Opens k h n base outer outer' →
    Opens k h n count (.vector base :: outer) (.vector items :: outer')

/-- How far reading is after a token, and how far parsing is. -/
inductive Progress.Shows (k : Keywords) (n : Nat) (h : Heap) : Progress → Parsed → Prop
  | value {r : Ref} {d : Datum} : Given k n h r d → Shows k n h (.value r) (.value d)
  | more {pending : List OpenForm} {forms : List OpenDatum} :
    Opens k h n h.roots.size pending forms → Shows k n h (.more pending) (.more forms)

variable {rules : Rules} {k : Keywords} {n l count base : Nat} {h g : Heap} {r : Ref} {d : Datum}

namespace Heap

theorem Legible.evolve (hh : h.Legible rules k) (he : Evolves rules n Effect.IsAddition h g) :
    g.Legible rules k where
  sound := he.sound_right
  orderly t ht := by
    obtain ⟨hmem, hpin⟩ := hh.orderly t ht
    have hlasts := he.pinned hmem hpin
    exact ⟨hlasts.mem, hlasts.pinned.trans hpin⟩
  indexed := he.indexed hh.indexed
  named := by
    intro p hp
    obtain ⟨hr, hname⟩ := hh.named p hp
    have hlasts := he.pinned hr.1 hr.2.1
    exact ⟨⟨hlasts.mem, hlasts.pinned.trans hr.2.1, hlasts.kind.trans hr.2.2⟩,
      (he.nameBytes_pinned hh.indexed hr.1 hr.2.1 hr.2.2).trans hname⟩

theorem Legible.shows_named (hh : h.Legible rules k) {p : Ref × String} (hp : p ∈ k.named) :
    h.Shows p.1 (.symbol p.2) :=
  .symbol (symbolName_eq_ok (hh.named p hp).1.2.2 (hh.named p hp).2)

theorem Legible.shows_dot (hh : h.Legible rules k) : h.Shows k.dot (.symbol ".") :=
  hh.shows_named (p := (k.dot, ".")) (by simp [Keywords.named])

/-- Only the dot shows the dot, among the values that are no symbols of the same name. -/
theorem Legible.dot_iff_of_not_isDot (hh : h.Legible rules k) (hd : h.Shows r d)
    (hdot : d.isDot = false) : r = k.dot ↔ d.isDot = true := by
  rw [hdot]
  refine ⟨fun heq => ?_, fun heq => nomatch heq⟩
  subst heq
  rw [hd.unique hh.shows_dot] at hdot
  cases hdot

theorem Standing.evolve (hi : h.Standing base items) (he : Evolves rules l Effect.IsAddition h g)
    (ht : h.Indexed) (hl : base + items.length ≤ l) : g.Standing base items := by
  intro i hlt
  exact he.shows_root ht id (by omega) (hi i hlt)

/-- Data do not depend on the roots. -/
theorem Shows.withRoots (hd : h.Shows r d) (hs : h.Sound rules) (hr : r ∈ h.records)
    (roots : Array Ref) : { h with roots }.Shows r d := by
  have hc : Carries Eq h { h with roots } :=
    ⟨fun _ _ _ hq _ => hq ▸ .of_sameBody (.refl _ _) rfl fun _ _ => Or.inr rfl,
      fun _ _ _ hq hk => hq ▸ ⟨hk, rfl⟩⟩
  exact hd.carry hs hc hr rfl

/-- A value that is pushed behind the items is the next one. -/
theorem Standing.push (hi : h.Standing base items) (hs : h.Sound rules)
    (hcount : h.roots.size = base + items.length) (hr : r ∈ h.records) (hd : h.Shows r d) :
    { h with roots := h.roots.push r }.Standing base (items ++ [d]) := by
  intro i hlt
  rw [List.length_append, List.length_singleton] at hlt
  rw [Heap.root, Array.getElem?_push]
  rcases Nat.lt_or_ge i items.length with hlt' | hge
  · rw [if_neg (by omega), List.getElem_append_left hlt']
    exact (hi i hlt').withRoots hs (hs.wf.root _ (root_mem (by omega))) _
  · obtain rfl : i = items.length := by omega
    rw [if_pos (by omega), List.getElem_concat_length rfl]
    exact hd.withRoots hs hr _

theorem Sound.evolves_push (hs : h.Sound rules) (hr : r ∈ h.records) (hn : n ≤ h.roots.size) :
    Evolves rules n Effect.IsAddition h { h with roots := h.roots.push r } :=
  ((Corr.diagonal hs _).later_pushRoots (View.diagonal_rel hr) hn).evolves

theorem Sound.evolves_release (hs : h.Sound rules) (hn : n ≤ h.roots.size) :
    Evolves rules n Effect.IsAddition h { h with roots := h.roots.shrink n } :=
  ((Corr.diagonal hs _).later_releaseRoots (fun _ hs => nomatch hs) hn (Nat.le_refl n)).evolves

end Heap

namespace Follows

variable {α β γ δ : Type} {fit : β → Prop} {fit' : δ → Prop} {post mid : Heap → α → β → Prop}
  {result : EStateM.Result Fault Heap α} {p : Except Fault β}

/-- A step before all else. -/
theorem after (hf : Follows rules n g fit post result p)
    (he : Evolves rules n Effect.IsAddition h g) : Follows rules n h fit post result p := by
  cases hf with
  | ok he' hpost => exact .ok (he.trans he') hpost
  | error he' => exact .error (he.trans he')
  | memory he' hfault hfit => exact .memory (he.trans he') hfault hfit

/-- What follows a step that can fail for want of memory only. -/
theorem andThen {x : HeapM α} {f : α → HeapM γ} {b : β} {q : Except Fault δ}
    {last : Heap → γ → δ → Prop} (hx : Follows rules l h fit mid (x h) (.ok b)) (hn : n ≤ l)
    (hfit : ∀ d, q = .ok d → fit' d → fit b)
    (hf : ∀ g a, Evolves rules l Effect.IsAddition h g → mid g a b →
      Follows rules n g fit' last (f a g) q) :
    Follows rules n h fit' last ((x >>= f) h) q := by
  generalize hresult : x h = result at hx
  cases hx with
  | ok he hmid =>
    rw [HeapM.bind_ok hresult]
    exact (hf _ _ he hmid).after (he.mono hn)
  | memory he hfault hexhausted =>
    rw [HeapM.bind_error hresult]
    exact .memory (he.mono hn) hfault fun d hd hfits => hexhausted b rfl (hfit d hd hfits)

end Follows

/-! The constructors that reading uses. -/

namespace Heap.Legible

theorem construct {c : Construction} (hh : h.Legible rules k) (hc : c.Valid h)
    (hframes : c.frames = []) (hdot : d.isDot = false) (hsize : d.Fits → c.size h ≤ maxSize)
    (hshow : ∀ kept place r g, h.Extends c.refs (c.height h) kept place
      [(r, (c.content h).map place)] g → g.Shows r d) :
    Follows rules (c.height h) h Datum.Fits (Given k (c.height h)) (c.run h) (.ok d) := by
  have hends := Construction.ends hh.sound hh.orderly hc (by rw [hframes]; exact nofun)
  generalize c.run h = result at hends
  cases hends with
  | @ok kept place r g he hext =>
    have hshows := hshow kept place r g hext
    refine .ok he ⟨?_, hshows, ?_, (hh.evolve he).dot_iff_of_not_isDot hshows hdot⟩
    · exact (store_eq_some.mp (hext.new _ (List.mem_singleton_self _))).1
    · have hheight := hc.height
      rw [hext.roots, Array.size_map, Array.size_extract]
      omega
  | memory he hfault =>
    refine .memory he hfault.1 fun b hb hfits => hfault.2 (hsize ?_)
    cases hb
    exact hfits

theorem content_new {refs : List Ref} {height : Nat} {kept : Ref → Prop} {place : Ref → Ref}
    {c : Content} (hext : h.Extends refs height kept place [(r, c)] g) : g.content r = c :=
  (store_eq_some.mp (hext.new _ (List.mem_singleton_self _))).2

section

variable (hh : h.Legible rules k)
include hh

theorem cons {a b : Ref} {car cdr : Datum} (ha : a ∈ h.records) (hb : b ∈ h.records)
    (hcar : h.Shows a car) (hcdr : h.Shows b cdr) :
    Follows rules h.roots.size h Datum.Fits (Given k h.roots.size) (HeapM.cons a b h)
      (.ok (.pair car cdr)) := by
  have hrefs : ∀ r ∈ [a, b], r ∈ h.records := by
    intro r hr
    rcases List.mem_pair.mp hr with rfl | rfl <;> assumption
  have hreach : ∀ r ∈ [a, b], h.Reaches [a, b] r := fun r hr =>
    .root (Array.mem_append.mpr (Or.inr (by simpa using hr)))
  refine hh.construct (c := .cons a b) ⟨hrefs, Nat.le_refl _, trivial⟩ rfl rfl
    (fun _ => Nat.zero_le _) fun _ place r g hext => ?_
  exact .pair (object_eq_pair_iff_content.mpr (content_new hext))
    (hcar.extend hh.sound hext ha (hreach a (by simp)))
    (hcdr.extend hh.sound hext hb (hreach b (by simp)))

/-- The roots from `base` on become a vector. -/
theorem vectorFromRoots (hcount : h.roots.size = base + items.length)
    (hitems : h.Standing base items) :
    Follows rules base h Datum.Fits (Given k base) (HeapM.vectorFromRoots base h)
      (.ok (.vector items)) := by
  have hlength : h.roots.size - base = items.length := by omega
  have hbase : base ≤ h.roots.size := by omega
  refine hh.construct (c := .vectorFromRoots base) ⟨nofun, hbase, trivial⟩ rfl rfl (fun hfits => ?_)
    fun _ place r g hext => ?_
  · cases hfits with
    | vector hsize _ =>
      rw [Construction.size, hlength]
      exact hsize
  refine shows_vector_iff.mpr ⟨_, content_new hext, ?_⟩
  rw [List.forall₂_map_left_iff, List.forall₂_iff_get]
  refine ⟨by rw [Array.length_toList, Array.size_extract]; omega, fun i hi hi' => ?_⟩
  have hroot : (h.roots.extract base h.roots.size).toList.get ⟨i, hi⟩ = h.root (base + i) := by
    rw [List.get_eq_getElem, Array.getElem_toList, Array.getElem_extract, Heap.root,
      Array.getElem?_eq_getElem (by omega)]
    rfl
  have hmem : h.root (base + i) ∈ h.roots := root_mem (by omega)
  rw [hroot, List.get_eq_getElem]
  exact (hitems i hi').extend hh.sound hext (hh.sound.wf.root _ hmem)
    (.root (Array.mem_append.mpr (Or.inl hmem)))

/-- The items from `base` on are consed onto a tail, the last one first. -/
theorem listOnto (hcount : base + items.length ≤ h.roots.size) (hitems : h.Standing base items)
    (hmem : tail ∈ h.records) (htail : h.Shows tail d)
    (hdot : items = [] → (tail = k.dot ↔ d.isDot = true)) :
    Follows rules h.roots.size h Datum.Fits (Given k h.roots.size)
      (HeapM.listOnto base items.length tail h) (.ok (.dotted items d)) := by
  induction items using List.reverseRecOn generalizing h tail d with
  | nil => exact .ok (.refl hh.sound (Nat.le_refl _)) ⟨hmem, htail, rfl, hdot rfl⟩
  | append_singleton items x ih =>
    rw [List.length_append, List.length_singleton] at hcount ⊢
    have hlast : h.Shows (h.root (base + items.length)) x := by
      have := hitems items.length (by simp)
      rwa [List.getElem_concat_length rfl] at this
    have hdotted : Datum.dotted (items ++ [x]) d = Datum.dotted items (.pair x d) := by
      rw [Datum.dotted, List.foldr_append]
      rfl
    rw [HeapM.listOnto, HeapM.root_bind, hdotted]
    refine (hh.cons (hh.sound.wf.root _ (root_mem (by omega))) hmem hlast htail).andThen
      (Nat.le_refl _) (fun _ heq hfits => ?_) fun g list he hlist => ?_
    · cases heq
      exact (Datum.fits_dotted.mp hfits).2
    have hinit : h.Standing base items := by
      intro i hi
      have := hitems i (by rw [List.length_append]; omega)
      rwa [List.getElem_append_left hi] at this
    have hrest := ih (hh.evolve he) (by rw [hlist.height]; omega)
      (hinit.evolve he hh.indexed (by omega)) hlist.mem hlist.shows fun _ => hlist.dot
    rwa [hlist.height] at hrest

/-- The roots from `base` on become a list. -/
theorem listFromRoots (hcount : h.roots.size = base + items.length) (hitems : h.Standing base items)
    (hmem : tail ∈ h.records) (htail : h.Shows tail d)
    (hdot : items = [] → (tail = k.dot ↔ d.isDot = true)) :
    Follows rules base h Datum.Fits (Given k base) (HeapM.listFromRoots base tail h)
      (.ok (.dotted items d)) := by
  have hlength : h.roots.size - base = items.length := by omega
  unfold HeapM.listFromRoots
  rw [HeapM.rootCount_bind, hlength]
  refine (hh.listOnto (by omega) hitems hmem htail hdot).andThen (by omega) (fun _ heq hfits => ?_)
    fun g list he hlist => ?_
  · cases heq
    exact hfits
  rw [HeapM.releaseRoots_bind]
  have hsize := hlist.height
  refine .ok ((hh.evolve he).sound.evolves_release (by omega)) ⟨hlist.mem, ?_, ?_, hlist.dot⟩
  · exact hlist.shows.withRoots (hh.evolve he).sound hlist.mem _
  · change (g.roots.shrink base).size = base
    rw [Array.size_shrink]
    omega

theorem given_fixture {p : Nat × Kind} (hp : p ∈ fixtures)
    (hd : h.memory.kind p.1 = p.2 → (h.object p.1).datum? = some d) (hdot : d.isDot = false) :
    Given k h.roots.size h p.1 d := by
  have hfixture := hh.sound.fixture p hp
  have hshows : h.Shows p.1 d := .plain (hd hfixture.2.1)
  exact ⟨hfixture.1, hshows, rfl, hh.dot_iff_of_not_isDot hshows hdot⟩

theorem given_null : Given k h.roots.size h null .null :=
  hh.given_fixture (p := (null, .null)) (by decide)
    (fun hkind => by simp only [object, Heap.kind, hkind]; rfl) rfl

theorem given_eof : Given k h.roots.size h eof .eof :=
  hh.given_fixture (p := (eof, .eof)) (by decide)
    (fun hkind => by simp only [object, Heap.kind, hkind]; rfl) rfl

theorem given_boolean (value : Bool) :
    Given k h.roots.size h (Heap.boolean value) (.boolean value) := by
  cases value with
  | false =>
    exact hh.given_fixture (p := (falsity, .falsity)) (by decide)
      (fun hkind => by simp only [object, Heap.kind, hkind]; rfl) rfl
  | true =>
    exact hh.given_fixture (p := (truth, .truth)) (by decide)
      (fun hkind => by simp only [object, Heap.kind, hkind]; rfl) rfl

/-- The symbol of a name. -/
theorem intern (name : String) :
    Follows rules h.roots.size h Datum.Fits (Given k h.roots.size) (HeapM.intern name h)
      (.ok (.symbol name)) := by
  have hagrees := Agrees.internWith (Corr.diagonal hh.sound Effect.IsAddition)
    (Nat.le_refl h.roots.size) Text.digest name trivial
  have he : Evolves rules h.roots.size Effect.IsAddition h (h.after (HeapM.intern name)) :=
    hagrees.evolves
  have hinterns := HeapM.interns hh.sound Text.digest name
  unfold Heap.after at he
  cases hrun : HeapM.intern name h with
  | ok r g =>
    rw [hrun] at he
    rw [show HeapM.internWith Text.digest name h = .ok r g from hrun] at hinterns
    obtain ⟨w, b, rfl, hw, hmade⟩ := hagrees.of_ok hrun
    have hg := hh.evolve he
    have hname := hinterns.nameBytes hh.sound hh.indexed
    have hmem := hw.mem_left hmade.rel.1
    refine .ok he ⟨hmem, .symbol (symbolName_eq_ok hmade.kind_eq hname), hmade.roots, ?_⟩
    obtain ⟨hdot, hdotName⟩ := hg.named (k.dot, ".") (by simp [Keywords.named])
    rw [Datum.isDot, beq_iff_eq]
    constructor
    · rintro rfl
      exact Text.toUTF8_injective (hname.symm.trans hdotName)
    · rintro rfl
      obtain ⟨rs, htable⟩ := hg.indexed
      exact htable.eq_of_nameBytes hg.sound ((htable.mem_iff r).mpr ⟨hmem, hmade.kind_eq⟩)
        ((htable.mem_iff _).mpr ⟨hdot.1, hdot.2.2⟩) (hname.trans hdotName.symm)
  | error fault g =>
    rw [hrun] at he
    rw [show HeapM.internWith Text.digest name h = .error fault g from hrun] at hinterns
    cases hinterns with
    | tooLarge _ hlt =>
      refine .memory he rfl fun b hb hfits => ?_
      cases hb
      cases hfits with
      | symbol hle => exact absurd hlt (Nat.not_lt_of_le (by rwa [Text.length_toUTF8]))
    | exhausted _ _ _ _ => exact .memory he rfl fun _ _ _ => rfl

/-- A datum that is one word. -/
theorem atom {a : Atom} (hfits : (Token.atom a).Fits) :
    Follows rules h.roots.size h Datum.Fits (Given k h.roots.size) (Reader.atom a h)
      (.ok a.datum) := by
  have hheight := Nat.le_refl h.roots.size
  cases a with
  | boolean value => exact .ok (.refl hh.sound hheight) (hh.given_boolean value)
  | number value =>
    cases value with
    | integer value =>
      refine hh.construct (c := .integer value) ⟨nofun, hheight, ?_⟩ rfl rfl (fun _ => Nat.zero_le _)
        fun _ place r g hext => .plain ?_
      · simp only [Token.Fits, fitsWord, Bool.and_eq_true, decide_eq_true_eq] at hfits
        exact ⟨hfits.1, Int.lt_add_one_iff.mpr hfits.2⟩
      · rw [object_eq, content_new hext]
        rfl
    | float bits =>
      refine hh.construct (c := .float bits) ⟨nofun, hheight, trivial⟩ rfl rfl
        (fun _ => Nat.zero_le _) fun _ place r g hext => .plain ?_
      rw [object_eq, content_new hext]
      rfl
  | symbol name => exact hh.intern name
  | string text =>
    refine hh.construct (c := .string text) ⟨nofun, hheight, trivial⟩ rfl rfl (fun hfits => ?_)
      fun _ place r g hext => .string (stringValue_iff.mpr ⟨_, content_new hext, ?_⟩)
    · cases hfits with
      | string hsize => exact hsize
    have hcodes : charOfCode ∘ Char.toNat = id := funext charOfCode_toNat
    rw [List.map_map, hcodes, List.map_id, String.ofList_toList]
  | char value =>
    refine hh.construct (c := .character value) ⟨nofun, hheight, trivial⟩ rfl rfl
      (fun _ => Nat.zero_le _) fun _ place r g hext => .plain ?_
    rw [object_eq, content_new hext]
    change some (Datum.char (charOfCode value.toNat)) = _
    rw [charOfCode_toNat]
    rfl

end

end Heap.Legible

/-! Forms that are open. -/

namespace Opens

variable {pending : List OpenForm} {forms : List OpenDatum}

theorem low (ho : Opens k h n count pending forms) : n ≤ count := by
  induction ho with
  | nil => exact Nat.le_refl _
  | quoted _ ih => exact ih
  | list _ _ _ ih | dotted _ _ _ _ ih | tailed _ _ _ _ _ ih | vector _ _ _ ih => omega

theorem evolve (ho : Opens k h n count pending forms) (he : Evolves rules l Effect.IsAddition h g)
    (ht : h.Indexed) (hl : count ≤ l) : Opens k g n count pending forms := by
  induction ho with
  | nil => exact .nil
  | quoted _ ih => exact .quoted (ih hl)
  | list hcount hitems _ ih =>
    exact .list hcount (hitems.evolve he ht (by omega)) (ih (by omega))
  | dotted hcount hne hitems _ ih =>
    exact .dotted hcount hne (hitems.evolve he ht (by omega)) (ih (by omega))
  | tailed hslot hcount hne hitems _ ih =>
    refine .tailed hslot hcount hne (hitems.evolve he ht ?_) (ih (by omega))
    rw [List.length_append, List.length_singleton]
    omega
  | vector hcount hitems _ ih =>
    exact .vector hcount (hitems.evolve he ht (by omega)) (ih (by omega))

/-- A datum goes to the innermost open form. -/
theorem deliver (ho : Opens k h n h.roots.size pending forms) (hh : h.Legible rules k)
    (hr : Given k h.roots.size h r d) :
    Follows rules n h Parsed.Fits (Progress.Shows k n) (Reader.deliver k pending r h)
      (Parser.deliver forms d) := by
  induction pending generalizing h forms r d with
  | nil =>
    generalize hcount : h.roots.size = count at ho
    cases ho
    exact .ok (.refl hh.sound (Nat.le_of_eq hcount.symm)) (.value (hcount ▸ hr))
  | cons form outer ih =>
    have hlow := ho.low
    have hpush := hh.sound.evolves_push hr.mem hlow
    generalize hcount : h.roots.size = count at ho
    -- what a form keeps of the data delivered before, with one more root
    have hkept : ∀ {base items outer outer'}, count = base + List.length items →
        h.Standing base items → Opens k h n base outer outer' →
        { h with roots := h.roots.push r }.roots.size = base + (items ++ [d]).length ∧
        { h with roots := h.roots.push r }.Standing base (items ++ [d]) ∧
        Opens k { h with roots := h.roots.push r } n base outer outer' := by
      intro base items outer outer' heq hitems houter
      refine ⟨?_, hitems.push hh.sound (hcount.trans heq) hr.mem hr.shows,
        houter.evolve (hh.sound.evolves_push hr.mem (Nat.le_refl _)) hh.indexed (by omega)⟩
      change (h.roots.push r).size = _
      rw [Array.size_push, List.length_append, List.length_singleton]
      omega
    cases ho with
    | @quoted _ mark _ outer' houter =>
      subst hcount
      have hnull := hh.given_null
      rw [Reader.deliver, Parser.deliver]
      -- the form that is delivered in the end is made of the two pairs
      have hform : ∀ parsed, Parser.deliver outer' (.list [.symbol mark.name, d]) = .ok parsed →
          parsed.Fits → (Datum.list [.symbol mark.name, d]).Fits := fun _ heq hfits =>
        (Parser.deliver_fits heq hfits).1
      refine (hh.cons hr.mem hnull.mem hr.shows hnull.shows).andThen hlow (fun parsed heq hfits => ?_)
        fun g tail he htail => ?_
      · cases hform parsed heq hfits with
        | pair _ htail => exact htail
      have hg := hh.evolve he
      have hmark : (k.ofMark mark, mark.name) ∈ k.named := by
        cases mark <;> simp [Keywords.ofMark, QuoteMark.name, Keywords.named]
      refine (hg.cons (hg.named _ hmark).1.1 htail.mem (hg.shows_named hmark) htail.shows).andThen
        (by rw [htail.height]; exact hlow) hform fun g' form he' hform => ?_
      have houter' := (houter.evolve he hh.indexed (Nat.le_refl _)).evolve he' hg.indexed
        (Nat.le_of_eq htail.height.symm)
      have hsize : g'.roots.size = h.roots.size := by rw [hform.height, htail.height]
      exact ih (by rw [hsize]; exact houter') (hg.evolve he') (by rw [hsize, ← htail.height]; exact hform)
    | @list _ base items _ _ heq hitems houter =>
      rw [Reader.deliver, Parser.deliver]
      by_cases hdot : r = k.dot
      · rw [if_pos hdot, if_pos (hr.dot.mp hdot), HeapM.rootCount_bind]
        cases items with
        | nil =>
          rw [if_neg (by rw [hcount, heq]; simp)]
          exact .error (.refl hh.sound hlow)
        | cons x items =>
          rw [if_pos (by rw [hcount, heq]; simp), if_neg (by simp)]
          exact .ok (.refl hh.sound hlow) (.more (.dotted (hcount.trans heq) (by simp) hitems houter))
      · rw [if_neg hdot, if_neg fun hd => hdot (hr.dot.mpr hd), HeapM.pushRoot_bind]
        obtain ⟨hsize, hstands, houter'⟩ := hkept heq hitems houter
        exact .ok hpush (.more (.list hsize hstands houter'))
    | @dotted _ base items _ _ heq hne hitems houter =>
      obtain ⟨hsize, hstands, houter'⟩ := hkept heq hitems houter
      rw [List.length_append, List.length_singleton] at hsize
      rw [Reader.deliver, HeapM.pushRoot_bind, Parser.deliver]
      exact .ok hpush (.more (.tailed (by omega) (by omega) hne hstands houter'))
    | tailed _ _ _ _ _ => exact .error (.refl hh.sound hlow)
    | @vector _ base items _ _ heq hitems houter =>
      rw [Reader.deliver, Parser.deliver]
      by_cases hdot : r = k.dot
      · rw [if_pos hdot, if_pos (hr.dot.mp hdot)]
        exact .error (.refl hh.sound hlow)
      · rw [if_neg hdot, if_neg fun hd => hdot (hr.dot.mpr hd)]
        obtain ⟨hsize, hstands, houter'⟩ := hkept heq hitems houter
        exact .ok hpush (.more (.vector hsize hstands houter'))

/-- A form that ends goes to the form around it. -/
theorem deliver_after {x : HeapM Ref} {outer : List OpenForm} {outer' : List OpenDatum}
    (ho : Opens k h n base outer outer') (hh : h.Legible rules k)
    (hx : Follows rules base h Datum.Fits (Given k base) (x h) (.ok d)) :
    Follows rules n h Parsed.Fits (Progress.Shows k n) ((x >>= Reader.deliver k outer) h)
      (Parser.deliver outer' d) := by
  refine hx.andThen ho.low (fun _ heq hfits => (Parser.deliver_fits heq hfits).1)
    fun g r he hr => ?_
  have hsize := hr.height
  subst hsize
  exact (ho.evolve he hh.indexed (Nat.le_refl _)).deliver (hh.evolve he) hr

/-- The innermost open form ends. -/
theorem close (ho : Opens k h n h.roots.size pending forms) (hh : h.Legible rules k) :
    Follows rules n h Parsed.Fits (Progress.Shows k n) (Reader.close k pending h) (Parser.close forms) := by
  have hlow := ho.low
  generalize hcount : h.roots.size = count at ho
  cases ho with
  | nil | quoted _ | dotted _ _ _ _ => exact .error (.refl hh.sound hlow)
  | list heq hitems houter =>
    have hnull := hh.given_null
    exact houter.deliver_after hh
      (hh.listFromRoots (hcount.trans heq) hitems hnull.mem hnull.shows fun _ => hnull.dot)
  | @tailed _ base slot items tail _ _ hslot heq hne hitems houter =>
    have hsize : slot ≤ h.roots.size := by omega
    have hrelease := hh.sound.evolves_release hsize
    have hg := hh.evolve hrelease
    have hstands : h.Standing base items := by
      intro i hi
      have := hitems i (by rw [List.length_append]; omega)
      rwa [List.getElem_append_left hi] at this
    have htail : h.Shows (h.root slot) tail := by
      have := hitems items.length (by simp)
      rwa [List.getElem_concat_length rfl, ← hslot] at this
    have hmem := hh.sound.wf.root _ (root_mem (h := h) (i := slot) (by omega))
    have hsize' : { h with roots := h.roots.shrink slot }.roots.size = base + items.length := by
      change (h.roots.shrink slot).size = _
      rw [Array.size_shrink]
      omega
    rw [Reader.close, HeapM.root_bind, HeapM.releaseRoots_bind, Parser.close]
    have hrest := (houter.evolve hrelease hh.indexed (by omega)).deliver_after hg
      (hg.listFromRoots hsize' (hstands.evolve hrelease hh.indexed (by omega)) hmem
        (htail.withRoots hh.sound hmem _) fun hnil => absurd hnil hne)
    exact hrest.after (hrelease.mono (by have := houter.low; omega))
  | vector heq hitems houter =>
    exact houter.deliver_after hh (hh.vectorFromRoots (hcount.trans heq) hitems)

/-- A token is taken in. -/
theorem accept (ho : Opens k h n h.roots.size pending forms) (hh : h.Legible rules k)
    {token : Token} (hfits : token.Fits) :
    Follows rules n h Parsed.Fits (Progress.Shows k n) (Reader.accept k pending token h)
      (Parser.accept forms token) := by
  have hnone : h.Standing h.roots.size [] := nofun
  cases token with
  | openList => exact .ok (.refl hh.sound ho.low) (.more (.list rfl hnone ho))
  | openVector => exact .ok (.refl hh.sound ho.low) (.more (.vector rfl hnone ho))
  | close => exact ho.close hh
  | quoteMark mark => exact .ok (.refl hh.sound ho.low) (.more (.quoted ho))
  | atom a => exact ho.deliver_after hh (hh.atom hfits)
  | fault fault => exact .error (.refl hh.sound ho.low)

end Opens

end ArenaScheme
