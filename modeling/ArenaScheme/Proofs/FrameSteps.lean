import ArenaScheme.Proofs.Depiction

/-! Operations on a heap that depicts a store. Each does to the heap what it means for the store, or it
stops for want of room and has done nothing. -/

namespace ArenaScheme

open Memory Heap

variable {g : Heap} {item : Item} {kind : Kind} {bytes : List UInt8} {m : Memory} {large : Prop}
  {b f i r s size t v w : Nat}

/-! Which steps keep all things. -/

namespace Heap

variable {rules : Rules} {h g : Heap}

theorem Pushed.keepsItems {words : List Nat} (hm : h.Pushed rules kind words bytes size m)
    (hs : h.Sound rules) : KeepsItems h { h with memory := m, top := h.top + size } :=
  (hm.keepsScopes hs).keepsItems (fun _ hr _ => hm.matches_self hs.wf hr)
    fun _ hr => (hm.lasts hs.wf hr).pinned

theorem SymbolAdded.keepsItems {name : List UInt8} {rs : List Nat}
    (ha : h.SymbolAdded rules name g) (hs : h.Sound rules) (ht : h.SymbolTable rs) :
    KeepsItems h g :=
  (ha.sameScopes hs ht).keepsItems
    (fun r hr hk => ha.same hs ht hr fun hsymbol => by rw [hsymbol] at hk; cases hk)
    fun _ hr => (ha.lasts hs hr).pinned

theorem BindingAdded.keepsItems {frame symbol value : Nat}
    (ha : h.BindingAdded rules frame symbol value g) (hs : h.Sound rules) : KeepsItems h g := by
  obtain ⟨node, side, hp, -, hholds⟩ := ha.exists_put hs
  have hkind : h.memory.kind node = .environment ∧ side = 1 ∨ h.memory.kind node = .binding :=
    hholds.imp_right And.left
  refine ⟨fun r hr => hp.mem hr, fun r hr => hp.kind hr,
    fun s hs hk => (hp.matched s hs).nameBytes hk, fun f hf hk => ?_, fun r hr hk => ?_,
    fun r hr => (ha.lasts hs hr).pinned⟩
  · refine hp.field f hf 0 (by rw [environment_references hk]; decide) ?_
    rintro rfl
    rcases hkind with ⟨-, rfl⟩ | hbinding
    · decide
    · cases hk.symm.trans hbinding
  · refine hp.same hr ?_
    rintro rfl
    rcases hkind with ⟨hkind, -⟩ | hkind <;> rw [hkind] at hk <;> cases hk

theorem Sound.keepsItems_setBinding (hs : h.Sound rules) (hk : h.memory.kind b = .binding)
    (hm : FieldSet h.records h.memory b 1 v m) : KeepsItems h { h with memory := m } := by
  refine (hs.sameScopes_setField hm (by rw [hk]; decide) (fun _ => rfl)
    fun hsymbol => by cases hk.symm.trans hsymbol).keepsItems (fun r hr hr' => ?_)
      fun r hr => (hs.lasts_setField hm hr).pinned
  refine hm.matches_other hr ?_
  rintro rfl
  rw [hk] at hr'
  cases hr'

end Heap

/-! How operations end. -/

/-- An action on `h` ends as expected, or it fails because there is no room for `need` bytes more. It may
ask for records that no memory can hold if they can be `large`. -/
inductive Heap.Meets {α β : Type} (h : Heap) (large : Prop) (need : Nat) (expected : Except Fault β)
    (shows : β → α → Heap → Prop) (back : Heap → Prop) : EStateM.Result Fault Heap α → Prop
  | ok {b : β} {a : α} {g : Heap} : expected = .ok b → shows b a g → g.top ≤ h.top + need →
    Meets h large need expected shows back (.ok a g)
  | refused {fault : Fault} {g : Heap} : expected = .error fault → back g →
    Meets h large need expected shows back (.error fault g)
  | exhausted {fault : Fault} {g : Heap} :
    fault.Exceeds g.top ∧ (fault.isHeapExhausted = true ∨ large) → maxSize < h.top + need → back g →
    Meets h large need expected shows back (.error fault g)

/-- `r` is the result in a heap that depicts the new store. -/
def Shows (ground : Ground) (slots : List Nat) (result : Nat × Store) (r : Ref)
    (g : Heap) : Prop :=
  ∃ pos, Portrays ground result.2 slots pos g ∧ pos result.1 r

theorem Store.nearest_eq (A : Store) (f s : Nat) :
    A.nearest f s = if (A.value f s).isSome then some f
      else (A.outer f).bind fun o => if o < f then A.nearest o s else none := by
  unfold Store.nearest
  rw [Store.chain, List.find?_cons]
  cases hvalue : (A.value f s).isSome with
  | true => rfl
  | false =>
    simp only [Bool.false_eq_true, if_false]
    cases A.outer f with
    | none => rfl
    | some o =>
      simp only [Option.bind_some]
      split <;> rfl

theorem Item.hasName_iff {name : String} : item.hasName name = true ↔ item = .symbol name := by
  cases item <;> simp [Item.hasName]

/-- What holds of an action after `first` bytes were taken. -/
theorem Heap.Meets.after {α β : Type} {h : Heap} {first need total : Nat}
    {expected : Except Fault β} {shows : β → α → Heap → Prop} {back back' : Heap → Prop}
    {result : EStateM.Result Fault Heap α} (hm : g.Meets large need expected shows back result)
    (htop : g.top ≤ h.top + first) (htotal : first + need ≤ total) (hback : ∀ k, back k → back' k) :
    h.Meets large total expected shows back' result := by
  cases hm with
  | ok hexpected hshows hle => exact .ok hexpected hshows (by omega)
  | refused hexpected hk => exact .refused hexpected (hback _ hk)
  | exhausted hfault hgt hk => exact .exhausted hfault (by omega) (hback _ hk)

/-- `B` is `A` with more things, no symbols among them. -/
structure Store.Grows (A B : Store) : Prop where
  items : ∀ i < A.items.length, B.items[i]? = A.items[i]?
  symbols : ∀ {i : Nat} {name : String}, B.items[i]? = some (.symbol name) → i < A.items.length

namespace Store

variable {A B : Store}

theorem Grows.refl (A : Store) : A.Grows A :=
  ⟨fun _ _ => rfl, fun hi => (List.getElem?_eq_some_iff.mp hi).1⟩

theorem Grows.make (hg : A.Grows B) (hle : A.items.length ≤ B.items.length)
    (hitem : ∀ name, item ≠ .symbol name) : A.Grows (B.make item).2 where
  items i hi := (List.getElem?_append_left (Nat.lt_of_lt_of_le hi hle)).trans (hg.items i hi)
  symbols {i name} hi := by
    change (B.items ++ [item])[i]? = _ at hi
    rcases Nat.lt_or_ge i B.items.length with hlt | hge
    · rw [List.getElem?_append_left hlt] at hi
      exact hg.symbols hi
    · rw [List.getElem?_append_right hge] at hi
      have := List.mem_of_getElem? hi
      exact absurd (List.mem_singleton.mp this).symm (hitem name)

theorem grows_list (A : Store) (tail : Nat) (xs : List Nat) :
    A.Grows (A.list tail xs).2 ∧ A.items.length ≤ (A.list tail xs).2.items.length := by
  induction xs with
  | nil => exact ⟨.refl A, Nat.le_refl _⟩
  | cons x xs ih =>
    refine ⟨ih.1.make ih.2 (fun name heq => nomatch heq), Nat.le_trans ih.2 ?_⟩
    rw [list, make, List.length_append]
    exact Nat.le_add_right _ _

theorem Grows.expect (hg : A.Grows B) (hi : i < A.items.length) (kind : Kind) (expected : String) :
    B.expect kind expected i = A.expect kind expected i := by
  unfold Store.expect Store.item
  rw [hg.items i hi]

theorem Grows.setVar (hg : A.Grows B) (hf : A.items.length ≤ f) : A.Grows (B.setVar f s v) where
  items i hi := by
    have hne : f ≠ i := Nat.ne_of_gt (Nat.lt_of_lt_of_le hi hf)
    rw [items_setVar, hg.items i hi]
    simp only [if_neg hne, Option.map_id_fun', id]
  symbols hi := hg.symbols (symbol_setVar hi)

theorem define_eq_ok (hdefine : A.define f s v = .ok B) :
    (A.item f).kind = .environment ∧ B = A.setVar f s v := by
  unfold define at hdefine
  cases hsymbol : A.expect .symbol "symbol" s with
  | error fault => simp [hsymbol, bind, Except.bind] at hdefine
  | ok _ =>
    by_cases hreserved : isReserved (A.name s) = true
    · simp [hsymbol, hreserved, bind, Except.bind, throw, throwThe, MonadExceptOf.throw] at hdefine
    · cases hframe : A.expect .environment "environment" f with
      | error fault => simp [hsymbol, hreserved, hframe, bind, Except.bind] at hdefine
      | ok _ =>
        rw [hsymbol, hframe, if_neg hreserved] at hdefine
        refine ⟨?_, (Except.ok.inj hdefine).symm⟩
        unfold expect at hframe
        split at hframe
        · assumption
        · cases hframe

/-- A list is made from its end. -/
theorem list_concat (A : Store) (tail : Nat) (xs : List Nat) (x : Nat) :
    A.list tail (xs ++ [x]) =
      (A.make (.pair x tail)).2.list (A.make (.pair x tail)).1 xs := by
  induction xs with
  | nil => rfl
  | cons y ys ih => rw [List.cons_append, list, ih, list]

end Store

namespace Portrays

variable {ground : Ground} {A : Store} {slots : List Nat} {pos : Nat → Nat → Prop}
  {h : Heap} {item : Item}

section

variable (hd : Portrays ground A slots pos h)
include hd

/-- A constructor makes a thing. -/
theorem makes {refs : List Nat} {words : (Nat → Nat) → List Nat}
    {result : EStateM.Result Fault Heap Ref}
    (hm : h.Makes ground.rules refs kind words bytes size result) (hbinding : kind ≠ .binding)
    (hsymbol : kind ≠ .symbol) (hclosed : item.Closed A.items.length (A.items.length + 1))
    (hcaptured : ∀ c, item = .closure c →
      c.env < A.items.length ∧ (A.item c.env).kind = .environment)
    (hat : ∀ {kept place k m}, h.Relocation kept place k → (∀ r ∈ refs, kept r) →
      k.Pushed ground.rules kind (words place) bytes size m →
      item.At (joined (moved pos kept place) A.items.length k.top)
        { k with memory := m, top := k.top + size } k.top) :
    h.Meets large size (.ok (A.make item)) (Shows ground slots) (·.Represents ground A slots) result := by
  cases hm with
  | @ok kept place k m hr hkept hm =>
    have hk := hd.relocate hr
    have hrecords := hm.records hk.sound.wf
    have hsound := hm.sound hk.sound
    have hsame := hm.sameScopes hk.sound hbinding
    obtain ⟨rs, htable⟩ := hk.ranged.table
    have hranged := hk.toDepicts.ranged_joined hsame hsound
      ⟨rs, (hm.sameSymbols hk.sound.wf hsymbol).table htable⟩
    have hvalue : ∀ b ∈ k.records, k.memory.kind b = .binding →
        m.field b 1 = k.memory.field b 1 := fun b hb hkind =>
      (hm.matches_self hk.sound.wf hb).reference_eq (mem_binding_references hkind (by decide))
    have hkeeps := hm.keepsItems hk.sound
    refine .ok rfl ⟨_, hk.make hkeeps hcaptured (hk.toDepicts.make hkeeps hsound hranged rfl hclosed
      ?_ ?_ ?_ (hat hr hkept hm)), Or.inr ⟨rfl, rfl⟩⟩ (Nat.add_le_add_right hr.top_le _)
    · exact fun i f hi hkind s => hsame.bound hk.ranged hk.sound hsound (hk.mem hi) hkind
        (Or.inr ⟨i, hi⟩) hvalue
    · intro r hmem hkind
      rw [hrecords, List.mem_append, List.mem_singleton] at hmem
      exact hmem
    · rw [hrecords]
      simp
  | exhausted hr hgt =>
    exact .exhausted ⟨hgt, Or.inl rfl⟩ (Nat.lt_of_lt_of_le hgt (Nat.add_le_add_right hr.top_le _))
      ⟨_, hd.relocate hr⟩

theorem integer (value : Int) :
    h.Meets large (fieldsSize 2)
      (.ok (A.make (.integer (signedOfWord (value % 18446744073709551616).toNat))))
      (Shows ground slots) (·.Represents ground A slots) (HeapM.integer value h) := by
  refine hd.makes (HeapM.makes_integer hd.sound value) (by decide) (by decide) trivial nofun
    fun {_ _ k m} _ _ hm => .data ?_
  have hlow := hm.written.field 0 _ rfl
  have hhigh := hm.written.field 1 _ rfl
  have hpayload : { k with memory := m, top := k.top + fieldsSize 2 }.payload k.top =
      (value % 18446744073709551616).toNat := by
    unfold Heap.payload Heap.field
    rw [hlow, hhigh]
    omega
  rw [← hpayload]
  simp only [Heap.content, Heap.kind, hm.written.kind]
  exact .integer _

theorem cons {i j r s : Nat} (hi : pos i r) (hj : pos j s) :
    h.Meets large (fieldsSize 2) (.ok (A.make (.pair i j))) (Shows ground slots)
      (·.Represents ground A slots) (HeapM.cons r s h) := by
  refine hd.makes (HeapM.makes_cons hd.sound (hd.mem hi) (hd.mem hj)) (by decide) (by decide)
    ⟨Nat.lt_succ_of_lt (hd.lt hi), Nat.lt_succ_of_lt (hd.lt hj)⟩ nofun
    fun {kept place k m} hr hkept hm => ?_
  have hword : ∀ x, kept x → place x < 4294967296 := fun x hx =>
    Nat.lt_trans (hr.wellFormed.lt_top (hr.mem_records hx)) hr.wellFormed.top_lt
  have hr' := hkept r (by simp)
  have hs' := hkept s (by simp)
  refine .data ?_
  rw [content_pair (hword r hr') (hword s hs') hm.written]
  exact .pair (Or.inl ⟨r, hi, hr', rfl⟩) (Or.inl ⟨s, hj, hs', rfl⟩)

/-- The check of a kind comes out the same. -/
theorem expect (hi : pos i r) (kind : Kind) (expected : String) :
    A.expect kind expected i = h.expectKind kind expected r := by
  unfold Store.expect Heap.expectKind Heap.typeName Heap.kind
  rw [hd.kind hi]

theorem frame {outer : Option Nat} {r : Option Ref} (houter : Option.Rel pos outer r)
    (hk : ∀ r' ∈ r, h.memory.kind r' = .environment) :
    h.Meets large (fieldsSize 2) (.ok (A.make (.frame outer fun _ => none))) (Shows ground slots)
      (·.Represents ground A slots) (HeapM.environment r h) := by
  have hmem : ∀ r' ∈ r, r' ∈ h.records ∧ h.memory.kind r' = .environment := fun r' hr' => by
    refine ⟨?_, hk r' hr'⟩
    cases houter with
    | none => cases hr'
    | some ho =>
      cases hr'
      exact hd.mem ho
  refine hd.makes (HeapM.makes_environment hd.sound hmem) (by decide) (by decide) ?_ nofun
    fun {kept place k m} hr hkept hm => ?_
  · refine ⟨fun o ho => ?_, fun _ _ hv => nomatch hv⟩
    cases houter with
    | none => cases ho
    | some hpos =>
      cases ho
      exact hd.lt hpos
  · have hs := hd.sound.relocate hr
    have hnew : k.top ∉ k.records := fun hmem => Nat.lt_irrefl _ (hs.wf.lt_top hmem)
    have hmem' : k.top ∈ { k with memory := m, top := k.top + fieldsSize 2 }.records := by
      rw [hm.records hs.wf]
      simp
    refine .frame hm.written.kind ?_ fun s t _ => ?_
    · cases houter with
      | none => exact Or.inl ⟨rfl, hm.written.word rfl (by decide)⟩
      | @some o r' ho =>
        have hkept' := hkept r' (by simp)
        have hlt := Nat.lt_trans (hs.wf.lt_top (hr.mem_records hkept')) hs.wf.top_lt
        refine Or.inr ⟨o, rfl, ?_⟩
        rw [show m.field k.top 0 = place r' from hm.written.word rfl hlt]
        exact Or.inl ⟨r', ho, hkept', rfl⟩
    · rw [(hm.sameScopes hs (by decide)).bound_fresh (hm.sound hs) hmem' hnew hm.written.kind]
      exact .none

/-- A name has a symbol in the store if it has one in the heap. -/
theorem findSymbol (name : String) :
    (∃ i r, A.intern name = (i, A) ∧ pos i r ∧ h.findSymbol name.toUTF8.toList = some r) ∨
      (A.intern name = A.make (.symbol name) ∧ h.findSymbol name.toUTF8.toList = none) := by
  obtain ⟨rs, htable⟩ := hd.ranged.table
  unfold Store.intern
  cases hfind : A.items.findIdx? (·.hasName name) with
  | some i =>
    obtain ⟨hlt, hname, -⟩ := List.findIdx?_eq_some_iff_getElem.mp hfind
    have hitem : A.items[i]? = some (.symbol name) :=
      List.getElem?_eq_some_iff.mpr ⟨hlt, Item.hasName_iff.mp hname⟩
    obtain ⟨r, hi⟩ := hd.placed hitem
    obtain ⟨item, hitem', hat⟩ := hd.item hi
    cases hitem.symm.trans hitem'
    cases hat with
    | symbol hk hbytes =>
      exact Or.inl ⟨i, r, rfl, hi, (htable.findSymbol_eq_some_iff hd.sound).mpr
        ⟨(htable.mem_iff r).mpr ⟨hd.mem hi, hk⟩, hbytes⟩⟩
    | data hres =>
      generalize h.content r = c at hres
      cases hres
  | none =>
    refine Or.inr ⟨rfl, Option.eq_none_iff_forall_ne_some.mpr fun r hr => ?_⟩
    obtain ⟨hmem, hbytes⟩ := (htable.findSymbol_eq_some_iff hd.sound).mp hr
    obtain ⟨hrecord, hk⟩ := (htable.mem_iff r).mp hmem
    obtain ⟨i, hi⟩ := hd.symbol r hrecord hk
    obtain ⟨item, hitem, hat⟩ := hd.item hi
    obtain ⟨other, rfl, hother⟩ := hat.eq_symbol hd.sound hk
    have hsame := Text.toUTF8_injective (hother.symm.trans hbytes)
    have hfalse := List.findIdx?_eq_none_iff.mp hfind _ (List.mem_of_getElem? hitem)
    rw [hsame, Item.hasName_iff.mpr rfl] at hfalse
    cases hfalse

theorem intern (digest : List UInt8 → Nat) (name : String) :
    h.Meets True (symbolSize name.toUTF8.toList.length) (.ok (A.intern name)) (Shows ground slots)
      (·.Represents ground A slots) (HeapM.internWith digest name h) := by
  have hinterns := HeapM.interns hd.sound digest name
  generalize HeapM.internWith digest name h = result at hinterns ⊢
  rcases hd.findSymbol name with ⟨i, r, heq, hi, hfind⟩ | ⟨heq, hfind⟩
  · cases hinterns with
    | found hfound =>
      cases hfind.symm.trans hfound
      exact .ok rfl ⟨pos, heq ▸ hd, heq ▸ hi⟩ (Nat.le_add_right _ _)
    | added hnone | tooLarge hnone | exhausted hnone => cases hfind.symm.trans hnone
  · rw [heq]
    cases hinterns with
    | found hfound => cases hfind.symm.trans hfound
    | @added kept place k g _ hr hadded hg =>
      have hk := hd.relocate hr
      obtain ⟨rs, htable⟩ := hk.ranged.table
      obtain ⟨bs, cs, hsplit, htable', hname, -⟩ := hadded.table hk.sound htable
      have hsame := hadded.sameScopes hk.sound htable
      have hnew := (htable'.mem_iff k.top).mp (mem_inserted.mpr (Or.inr rfl))
      have hkeeps := hadded.keepsItems hk.sound htable
      refine .ok rfl ⟨_, hk.make hkeeps nofun (hk.toDepicts.make hkeeps hg
        (hk.toDepicts.ranged_joined hsame hg ⟨_, htable'⟩) hadded.roots_eq trivial ?_ ?_ hnew.1
        (.symbol hnew.2 hname)), Or.inr ⟨rfl, rfl⟩⟩ ?_
      · exact fun i f hi hkind s => hsame.bound hk.ranged hk.sound hg (hk.mem hi) hkind
          (Or.inr ⟨i, hi⟩) fun b hb hbinding =>
            (hadded.same hk.sound htable hb (by rw [hbinding]; decide)).reference_eq
              (mem_binding_references hbinding (by decide))
      · intro r hr' hkind
        rcases mem_inserted.mp ((htable'.mem_iff r).mpr ⟨hr', hkind⟩) with hmem | heq
        · exact Or.inl (htable.mem_records (hsplit ▸ hmem))
        · exact Or.inr heq
      · rw [hadded.top_eq]
        exact Nat.add_le_add_right hr.top_le _
    | tooLarge _ hgt =>
      exact .exhausted ⟨hgt, Or.inr trivial⟩ (Nat.lt_of_lt_of_le hgt (Nat.le_add_left _ _)) ⟨pos, hd⟩
    | exhausted _ _ hgt hr =>
      exact .exhausted ⟨hgt, Or.inl rfl⟩ (Nat.lt_of_lt_of_le hgt (Nat.add_le_add_right hr.top_le _))
        ⟨_, hd.relocate hr⟩

end

/-! Variables. -/

section

variable (hd : Portrays ground A slots pos h)
include hd

/-- Another value for the binding of a symbol. -/
theorem setBinding (hf : pos f r) (hk : h.memory.kind r = .environment) (hs : pos s t)
    (hv : pos v w) (hfind : h.findBinding r t = some b) (hset : FieldSet h.records h.memory b 1 w m)
    (hg : { h with memory := m }.Sound ground.rules) :
    Portrays ground (A.setVar f s v) slots pos { h with memory := m } := by
  obtain ⟨bs, hb⟩ := hd.ranged.scope r (hd.mem hf) hk (Or.inr ⟨f, hf⟩)
  obtain ⟨hmem, -⟩ := (hb.findBinding_eq_some_iff hd.sound (hd.mem hf) hk).mp hfind
  have hkind := (hb.mem b hmem).2
  obtain ⟨rs, htable⟩ := hd.ranged.table
  have hsame : SameScopes h { h with memory := m } := hd.sound.sameScopes_setField hset
    (by rw [hkind]; decide) (fun _ => rfl) fun hsymbol => by cases hkind.symm.trans hsymbol
  have hsymbols := hd.sound.sameSymbols_setField hset (by rw [hkind]; decide)
  have hkeeps := hd.sound.keepsItems_setBinding hkind hset
  refine hd.setVar hkeeps (hd.toDepicts.setVar hkeeps hg
    (hsame.ranged hd.sound hg hd.ranged ⟨rs, hsymbols.table htable⟩ fun _ _ hshown => hshown) rfl ?_
    hf hs hv ?_)
  · intro r hr _
    exact hd.sound.records_setField hset ▸ hr
  · intro i f' hf' hk' s'
    exact hd.ranged.bound_setField hd.sound hg (hd.mem hf) hk (Or.inr ⟨f, hf⟩) hfind hset
      (hd.mem hf') hk' (Or.inr ⟨i, hf'⟩)

/-- Binding a symbol in a frame sets a variable. -/
theorem bind {result : EStateM.Result Fault Heap Unit} (hf : pos f r)
    (hk : h.memory.kind r = .environment) (hs : pos s t) (hv : pos v w)
    (hbinds : h.Binds ground.rules r t w result) :
    h.Meets large (fieldsSize 4) (.ok (A.setVar f s v)) (fun B _ g => g.Represents ground B slots)
      (·.Represents ground A slots) result := by
  cases hbinds with
  | updated hfind _ _ hset hg =>
    exact .ok rfl ⟨pos, hd.setBinding hf hk hs hv hfind hset hg⟩ (Nat.le_add_right _ _)
  | @added kept place k g hr hkept hadded hg =>
    have hmoved := hd.relocate hr
    have hkeeps := hadded.keepsItems hmoved.sound
    have hf' : moved pos kept place f (place r) := ⟨r, hf, hkept r (by simp), rfl⟩
    have hrules := hmoved.table_ne hf'
    refine .ok rfl ⟨_, hmoved.setVar hkeeps (hmoved.toDepicts.setVar hkeeps hg
      (hadded.ranged hrules hmoved.sound hg hmoved.ranged (Or.inr ⟨f, hf'⟩)) hadded.roots_eq ?_ hf'
      ⟨t, hs, hkept t (by simp), rfl⟩ ⟨w, hv, hkept w (by simp), rfl⟩ fun i q hq hk' s' =>
        hadded.bound hrules hmoved.ranged hmoved.sound hg (Or.inr ⟨f, hf'⟩) (hmoved.mem hq) hk'
          (Or.inr ⟨i, hq⟩))⟩ ?_
    · intro r hr hkind
      exact ((hadded.sameSymbols hmoved.sound).mem_iff r).mp ⟨hr, hkind⟩ |>.1
    · rw [hadded.top_eq]
      exact Nat.add_le_add_right hr.top_le _
  | exhausted hr hgt =>
    exact .exhausted ⟨hgt, Or.inl rfl⟩ (Nat.lt_of_lt_of_le hgt (Nat.add_le_add_right hr.top_le _))
      ⟨_, hd.relocate hr⟩

theorem expect_eq_ok {expected : String} (hi : pos i r) :
    A.expect kind expected i = .ok () ↔ h.memory.kind r = kind := by
  unfold Store.expect
  rw [hd.kind hi]
  by_cases hk : h.memory.kind r = kind
  · rw [if_pos hk]
    exact ⟨fun _ => hk, fun _ => rfl⟩
  · rw [if_neg hk]
    exact ⟨(fun heq => nomatch heq), fun heq => absurd heq hk⟩

/-- A symbol has the same name in the store. -/
theorem name_eq (hs : pos s t) (hk : h.memory.kind t = .symbol) :
    h.nameBytes t = (A.name s).toUTF8.toList := by
  obtain ⟨name, hitem, hname⟩ := (hd.item_at hs).eq_symbol hd.sound hk
  rw [hname, Store.name, hitem]

theorem symbolName (hs : pos s t) :
    h.symbolName t = (A.expect .symbol "symbol" s).map fun _ => A.name s := by
  by_cases hk : h.memory.kind t = .symbol
  · rw [(hd.expect_eq_ok hs).mpr hk, symbolName_eq_ok hk (hd.name_eq hs hk)]
    rfl
  · rw [hd.expect hs]
    unfold Heap.symbolName Heap.expectSymbol Heap.expectKind Heap.kind
    rw [if_neg hk]
    rfl

theorem define (hf : pos f r) (hs : pos s t) (hv : pos v w) :
    h.Meets large (fieldsSize 4) (A.define f s v) (fun B _ g => g.Represents ground B slots)
      (·.Represents ground A slots) (HeapM.define r t w h) := by
  rw [HeapM.define_run, hd.symbolName hs, Heap.expectFrame, ← hd.expect hf]
  unfold Store.define
  cases hsymbol : A.expect .symbol "symbol" s with
  | error fault => exact .refused rfl ⟨pos, hd⟩
  | ok _ =>
    simp only [Except.map]
    by_cases hreserved : isReserved (A.name s) = true
    · rw [if_pos hreserved, if_pos hreserved]
      exact .refused rfl ⟨pos, hd⟩
    rw [if_neg hreserved, if_neg hreserved]
    cases hframe : A.expect .environment "environment" f with
    | error fault => exact .refused rfl ⟨pos, hd⟩
    | ok _ =>
      have hk := (hd.expect_eq_ok hs).mp hsymbol
      have hk' := (hd.expect_eq_ok hf).mp hframe
      have hbindable : h.Bindable t := by
        refine ⟨hk, ?_⟩
        rw [hd.name_eq hs hk, Text.decode_toUTF8]
        exact Bool.eq_false_iff.mpr hreserved
      exact hd.bind hf hk' hs hv (HeapM.binds hd.sound (hd.mem hf) hk'
        (fun heq => absurd heq (hd.table_ne hf)) (hd.mem hs) (fun _ => hbindable) (hd.mem hv))

/-- The outer frame of a frame is older. -/
theorem outer_frame (hr : r ∈ h.records) (hk : h.memory.kind r = .environment)
    (hne : h.memory.field r 0 ≠ absent) :
    h.memory.kind (h.memory.field r 0) = .environment ∧ h.memory.field r 0 < r := by
  rcases hd.sound.allowed r hr 0 (by rw [environment_references hk]; decide) with
    ⟨habs, -⟩ | ⟨-, hfits⟩
  · exact absurd habs hne
  · rw [hk] at hfits
    exact hfits

/-- The search for a variable ends in the nearest frame that binds it. -/
theorem findVisibleFrom (hs : pos s t) {fuel : Nat} (hf : pos f r)
    (hk : h.memory.kind r = .environment) (hfuel : r < fuel) :
    Option.Rel (fun f' b => ∃ r', pos f' r' ∧ h.memory.kind r' = .environment ∧
      h.findBinding r' t = some b) (A.nearest f s) (h.findVisibleFrom t fuel r) := by
  induction fuel generalizing f r with
  | zero => exact absurd hfuel (Nat.not_lt_zero _)
  | succ fuel ih =>
    obtain ⟨outer, vars, hitem, houter, hvars⟩ := (hd.item_at hf).eq_frame hd.sound hk
    have hvalue : A.value f s = vars s := by rw [Store.value, hitem]
    have houter' : A.outer f = outer := by rw [Store.outer, hitem]
    have hfield : h.looseField r 0 = h.memory.field r 0 := hd.sound.looseField_eq (hd.mem hf)
      (field_end_le_extent (by rw [environment_references hk]; decide))
    have hrel := hvars s t hs
    rw [Store.nearest_eq, Heap.findVisibleFrom, if_neg (hd.sound.wf.ne_absent (hd.mem hf)), hvalue,
      houter', hfield]
    unfold Heap.bound at hrel
    cases hfind : h.findBinding r t with
    | some b =>
      rw [hfind] at hrel
      generalize vars s = value at hrel ⊢
      cases hrel with
      | some _ => exact .some ⟨r, hf, hk, hfind⟩
    | none =>
      rw [hfind] at hrel
      generalize vars s = value at hrel ⊢
      cases hrel with
      | none =>
        simp only [Option.isSome_none, Bool.false_eq_true, if_false]
        rcases houter with ⟨rfl, habs⟩ | ⟨o, rfl, ho⟩
        · rw [habs]
          cases fuel with
          | zero => exact .none
          | succ fuel =>
            rw [Heap.findVisibleFrom, if_pos rfl]
            exact .none
        · obtain ⟨item, hitem', -⟩ := hd.item hf
          have hlt : o < f := by
            have hclosed := hd.closed hitem'
            rw [Store.item, hitem'] at hitem
            cases hitem
            exact hclosed.1 o rfl
          obtain ⟨hkind, hless⟩ := hd.outer_frame (hd.mem hf) hk (hd.sound.wf.ne_absent (hd.mem ho))
          rw [Option.bind_some, if_pos hlt]
          exact ih ho hkind (Nat.lt_of_lt_of_le hless (Nat.le_of_lt_succ hfuel))

/-- Looking for a variable, with all that can be wrong. -/
theorem findVisible (hf : pos f r) (hs : pos s t) :
    (∃ f' r' b, A.visible f s = .ok f' ∧ h.findVisible r t = .ok b ∧ pos f' r' ∧
      h.memory.kind r' = .environment ∧ h.findBinding r' t = some b) ∨
    ∃ fault, A.visible f s = .error fault ∧ h.findVisible r t = .error fault := by
  unfold Store.visible Heap.findVisible Heap.expectFrame Heap.expectSymbol
  rw [← hd.expect hf, ← hd.expect hs, hd.symbolName hs]
  cases hframe : A.expect .environment "environment" f with
  | error fault => exact Or.inr ⟨fault, rfl, rfl⟩
  | ok _ =>
    cases hsymbol : A.expect .symbol "symbol" s with
    | error fault => exact Or.inr ⟨fault, rfl, rfl⟩
    | ok _ =>
      have hk := (hd.expect_eq_ok hf).mp hframe
      have hfuel := Nat.lt_of_lt_of_le (hd.sound.wf.lt_top (hd.mem hf)) hd.sound.wf.top_le
      have hrel := hd.findVisibleFrom hs hf hk hfuel
      change Option.Rel _ _ (h.findVisibleFrom t h.capacity r) at hrel
      generalize A.nearest f s = nearest at hrel ⊢
      generalize h.findVisibleFrom t h.capacity r = found at hrel ⊢
      cases hrel with
      | none => exact Or.inr ⟨_, rfl, rfl⟩
      | @some f' b hpos =>
        obtain ⟨r', hf', hk', hfind⟩ := hpos
        exact Or.inl ⟨f', r', b, rfl, rfl, hf', hk', hfind⟩

/-- The binding that was found holds the value of the variable. -/
theorem value {f s r t b : Nat} (hf : pos f r) (hk : h.memory.kind r = .environment) (hs : pos s t)
    (hfind : h.findBinding r t = some b) :
    h.looseField b 1 = h.memory.field b 1 ∧ pos ((A.value f s).getD 0) (h.memory.field b 1) := by
  obtain ⟨bs, hb⟩ := hd.ranged.scope r (hd.mem hf) hk (Or.inr ⟨f, hf⟩)
  obtain ⟨hmem, -⟩ := (hb.findBinding_eq_some_iff hd.sound (hd.mem hf) hk).mp hfind
  refine ⟨hb.looseField_eq hd.sound hmem (by decide), ?_⟩
  obtain ⟨outer, vars, hitem, -, hvars⟩ := (hd.item_at hf).eq_frame hd.sound hk
  have hrel := hvars s t hs
  rw [Heap.bound, hfind] at hrel
  rw [Store.value, hitem]
  dsimp only
  generalize vars s = value at hrel ⊢
  cases hrel with
  | some hv => exact hv

theorem lookup (hf : pos f r) (hs : pos s t) :
    (∃ v w, A.lookup f s = .ok v ∧ h.lookup r t = .ok w ∧ pos v w) ∨
    ∃ fault, A.lookup f s = .error fault ∧ h.lookup r t = .error fault := by
  unfold Store.lookup Heap.lookup
  rcases hd.findVisible hf hs with ⟨f', r', b, habstract, hconcrete, hf', hk', hfind⟩ |
    ⟨fault, habstract, hconcrete⟩
  · obtain ⟨hloose, hv⟩ := hd.value hf' hk' hs hfind
    rw [habstract, hconcrete]
    exact Or.inl ⟨_, _, rfl, congrArg Except.ok hloose, hv⟩
  · rw [habstract, hconcrete]
    exact Or.inr ⟨fault, rfl, rfl⟩

theorem assign (hf : pos f r) (hs : pos s t) (hv : pos v w) :
    h.Meets large 0 (A.assign f s v) (fun B _ g => g.Represents ground B slots)
      (·.Represents ground A slots) (HeapM.assign r t w h) := by
  unfold Store.assign HeapM.assign
  rw [HeapM.query_bind]
  rcases hd.findVisible hf hs with ⟨f', r', b, habstract, hconcrete, hf', hk', hfind⟩ |
    ⟨fault, habstract, hconcrete⟩
  · obtain ⟨bs, hb⟩ := hd.ranged.scope r' (hd.mem hf') hk' (Or.inr ⟨f', hf'⟩)
    obtain ⟨hmem, -⟩ := (hb.findBinding_eq_some_iff hd.sound (hd.mem hf') hk').mp hfind
    obtain ⟨m, hrun, hset, hg⟩ := hd.sound.setBinding (hb.mem b hmem).1 (hb.mem b hmem).2 (hd.mem hv)
    rw [habstract, hconcrete]
    simp only
    rw [hrun]
    exact .ok rfl ⟨pos, hd.setBinding hf' hk' hs hv hfind hset hg⟩ (Nat.le_refl _)
  · rw [habstract, hconcrete]
    exact .refused rfl ⟨pos, hd⟩

end

/-! Lists. -/

theorem slot_lt (hd : Portrays ground A slots pos h) : ∀ i ∈ slots, i < A.items.length := by
  intro i hi
  obtain ⟨r, hr⟩ := exists_of_forall₂ hd.slots.flip i hi
  exact hd.lt hr

/-- What a store has grown by can be forgotten. -/
theorem forgotten {B : Store} (hd : Portrays ground A slots pos h) (hgrows : A.Grows B)
    (hg : g.Represents ground B slots) : g.Represents ground A slots := by
  obtain ⟨pos', hd'⟩ := hg
  exact ⟨_, hd.forget hd' (hd'.toDepicts.forget hd.closed hgrows.items hgrows.symbols
    (hd.lt hd.null) hd.slot_lt)⟩

theorem listOnto {tail : Nat} (hd : Portrays ground A slots pos h) (ht : pos t tail)
    (start count : Nat) (hcount : count ≤ slots.length - start) :
    h.Meets large (fieldsSize 2 * count) (.ok (A.list t ((slots.drop start).take count)))
      (Shows ground slots) (·.Represents ground A slots) (HeapM.listOnto start count tail h) := by
  induction count generalizing A pos h t tail with
  | zero => exact .ok rfl ⟨pos, hd, ht⟩ (Nat.le_refl _)
  | succ count ih =>
    have hlt : start + count < slots.length := by omega
    have hlast : (slots.drop start).take (count + 1) =
        (slots.drop start).take count ++ [slots[start + count]] := by
      rw [List.take_add_one, List.getElem?_drop, List.getElem?_eq_getElem hlt]
      rfl
    have hslot := hd.slot (start + count)
    rw [List.getElem?_eq_getElem hlt, Option.getD_some] at hslot
    have hcons : h.Meets large _ _ _ _ _ := hd.cons hslot ht
    rw [hlast, Store.list_concat, HeapM.listOnto, HeapM.root_bind]
    generalize hrun : HeapM.cons (h.root (start + count)) tail h = result at hcons
    cases hcons with
    | ok hexpected hshows htop =>
      cases hexpected
      obtain ⟨pos', hd', hnew⟩ := hshows
      rw [HeapM.bind_ok hrun]
      refine (ih hd' hnew (by omega)).after htop (by rw [Nat.mul_succ]; omega) fun k hk => ?_
      refine hd.forgotten ((Store.Grows.refl A).make (Nat.le_refl _) fun name heq => ?_) hk
      cases heq
    | refused hexpected _ => cases hexpected
    | exhausted hfault hgt hback =>
      rw [HeapM.bind_error hrun]
      exact .exhausted hfault (by rw [Nat.mul_succ]; omega) hback

end Portrays

end ArenaScheme
