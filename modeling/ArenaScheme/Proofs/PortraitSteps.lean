import ArenaScheme.Proofs.LexicalScope
import ArenaScheme.Proofs.Likeness
import ArenaScheme.Proofs.StoreOperations

/-! The other operations on a heap that depicts a store: the constructors of data and of closures, and
the updates. Each does to the heap what it means for the store, or it stops for want of room. -/

namespace ArenaScheme

open Memory Heap

variable {m : Memory} {i j k r size t : Nat} {large : Prop}

namespace HeapM

variable {rules : Rules} {h : Heap} {n size : Nat} {kind : Kind} {bytes : List UInt8}

theorem checkSize_large {α : Type} {f : Unit → HeapM α} (hgt : maxSize < size) :
    (checkSize size >>= f) h = .error (.recordTooLarge size) h := by
  unfold checkSize
  rw [if_pos hgt]
  rfl

end HeapM

namespace Portrays

variable {ground : Ground} {A : Store} {slots : List Nat} {pos : Nat → Nat → Prop}
  {h : Heap} {item : Item}

section

variable (hd : Portrays ground A slots pos h)
include hd

/-- A constructor makes a thing whose contents are known from what is written. -/
theorem makes_data {refs : List Nat} {kind : Kind} {words : (Nat → Nat) → List Nat}
    {bytes : List UInt8} {result : EStateM.Result Fault Heap Ref}
    (hm : h.Makes ground.rules refs kind words bytes size result) (hkind : kind.inTrees = false)
    (hclosed : item.Closed A.items.length (A.items.length + 1))
    (hcaptured : ∀ c, item = .closure c →
      c.env < A.items.length ∧ (A.item c.env).kind = .environment)
    (hresembles : ∀ {place : Nat → Nat} {pos' : Nat → Nat → Prop} {g : Heap} {r : Nat},
      (∀ x ∈ refs, place x < 4294967296 ∧ ∀ i, pos i x → pos' i (place x)) →
      Written g.memory r kind g.pinning (words place) bytes → item.Resembles pos' (g.content r)) :
    h.Meets large size (.ok (A.make item)) (Shows ground slots) (·.Represents ground A slots)
      result := by
  refine hd.makes hm (by rintro rfl; cases hkind) (by rintro rfl; cases hkind) hclosed hcaptured
    fun {kept place k m} hr hkept hm => .data (hresembles (fun x hx => ⟨?_, fun i hi => ?_⟩)
      hm.written)
  · exact Nat.lt_trans (hr.wellFormed.lt_top (hr.mem_records (hkept x hx))) hr.wellFormed.top_lt
  · exact Or.inl ⟨x, hi, hkept x hx, rfl⟩

theorem float (bits : UInt64) :
    h.Meets large (fieldsSize 2) (.ok (A.make (.float bits))) (Shows ground slots)
      (·.Represents ground A slots) (HeapM.float bits h) :=
  hd.makes_data (HeapM.makes_float hd.sound bits) rfl trivial nofun fun _ hw => by
    rw [content_float hw]
    exact .float bits

theorem character (c : Char) :
    h.Meets large (fieldsSize 1) (.ok (A.make (.char c))) (Shows ground slots)
      (·.Represents ground A slots) (HeapM.character c h) :=
  hd.makes_data (HeapM.makes_character hd.sound c) rfl trivial nofun fun {_ pos' _ _} _ hw => by
    have hchar : (Item.char (charOfCode c.toNat)).Resembles pos' (.char c.toNat) := .char _
    rw [charOfCode_toNat] at hchar
    rw [content_char (HeapM.char_lt c) hw]
    exact hchar

theorem tagged {i j r s : Nat} (hi : pos i r) (hj : pos j s) :
    h.Meets large (fieldsSize 2) (.ok (A.make (.tagged i j))) (Shows ground slots)
      (·.Represents ground A slots) (HeapM.tagged r s h) :=
  hd.makes_data (HeapM.makes_tagged hd.sound (hd.mem hi) (hd.mem hj)) rfl ⟨hd.lt hi, hd.lt hj⟩ nofun
    fun hplace hw => by
      obtain ⟨hr, hr'⟩ := hplace r (by simp)
      obtain ⟨hs, hs'⟩ := hplace s (by simp)
      rw [content_tagged hr hs hw]
      exact .tagged (hr' i hi) (hs' j hj)

theorem builtin {index : Nat} (hi : pos i r) (hindex : index < 4294967296) :
    h.Meets large (fieldsSize 2) (.ok (A.make (.builtin i index))) (Shows ground slots)
      (·.Represents ground A slots) (HeapM.builtin r index h) :=
  hd.makes_data (HeapM.makes_builtin hd.sound (hd.mem hi) index) rfl
    (Nat.lt_succ_of_lt (hd.lt hi)) nofun fun hplace hw => by
      obtain ⟨hr, hr'⟩ := hplace r (by simp)
      rw [content_builtin hr hindex hw]
      exact .builtin index (hr' i hi)

theorem closure {c d : Closure} (hc : c.Alike pos d) (henv : (A.item c.env).kind = .environment)
    (harity : c.arity < 4294967296) :
    h.Meets large closureSize (.ok (A.make (.closure c))) (Shows ground slots)
      (·.Represents ground A slots)
      (HeapM.closure d.name d.formals d.env d.body d.arity d.rest h) := by
  refine hd.makes_data (HeapM.makes_closure hd.sound ?_ (fun heq => nomatch heq)) rfl
    ⟨Nat.lt_succ_of_lt (hd.lt hc.name), Nat.lt_succ_of_lt (hd.lt hc.formals),
      Nat.lt_succ_of_lt (hd.lt hc.env), Nat.lt_succ_of_lt (hd.lt hc.body)⟩
    (fun _ heq => by cases heq; exact ⟨hd.lt hc.env, henv⟩) fun {place pos' g r} hplace hw => ?_
  · simp only [List.forall_mem_cons, List.not_mem_nil, false_implies, implies_true, and_true]
    exact ⟨hd.mem hc.name, hd.mem hc.formals, hd.mem hc.env, hd.mem hc.body⟩
  · simp only [List.forall_mem_cons, List.not_mem_nil, false_implies, implies_true, and_true]
      at hplace
    obtain ⟨hname, hformals, henv, hbody⟩ := hplace
    have hcontent : g.content r = .closure { d with
        name := place d.name, formals := place d.formals, env := place d.env,
        body := place d.body } :=
      content_closure (by simpa using ⟨hname.1, hformals.1, henv.1, hbody.1⟩) (hc.arity ▸ harity) hw
    rw [hcontent]
    exact .closure ⟨hname.2 _ hc.name, hformals.2 _ hc.formals, henv.2 _ hc.env, hbody.2 _ hc.body,
      hc.arity, hc.rest⟩

/-- A record whose size has to be checked first. -/
theorem checked {x : HeapM Ref} (hlarge : maxSize < size → x h = .error (.recordTooLarge size) h)
    (hsmall : size ≤ maxSize → h.Meets True size (.ok (A.make item)) (Shows ground slots)
      (·.Represents ground A slots) (x h)) :
    h.Meets True size (.ok (A.make item)) (Shows ground slots) (·.Represents ground A slots)
      (x h) := by
  rcases Nat.lt_or_ge maxSize size with hgt | hle
  · rw [hlarge hgt]
    exact .exhausted ⟨hgt, Or.inr trivial⟩ (Nat.lt_of_lt_of_le hgt (Nat.le_add_left _ _)) ⟨pos, hd⟩
  · exact hsmall hle

theorem string (text : String) :
    h.Meets True (sequenceSize text.toList.length) (.ok (A.make (.string text.toList)))
      (Shows ground slots) (·.Represents ground A slots) (HeapM.string text h) := by
  refine hd.checked (fun hgt => ?_) fun hsize =>
    hd.makes_data (HeapM.makes_string hd.sound text hsize) rfl trivial nofun
      fun {_ pos' g r} _ hw => ?_
  · rw [HeapM.string_eq]
    simp only [List.length_map]
    exact HeapM.checkSize_large hgt
  · have hlength := HeapM.length_lt_of_size hsize
    have hcodes : (text.toList.map Char.toNat).map charOfCode = text.toList := by
      rw [List.map_map]
      exact (List.map_congr_left fun c _ => charOfCode_toNat c).trans (List.map_id' _)
    have hcontent : g.content r = .string (text.toList.map Char.toNat) :=
      content_string (by rwa [List.length_map]) (List.forall_mem_map.mpr fun c _ => HeapM.char_lt c)
        (by rwa [List.length_map])
    have hres : (Item.string _).Resembles pos' (.string (text.toList.map Char.toNat)) := .string _
    rwa [hcodes, ← hcontent] at hres

theorem makeString (length : Nat) (fill : Char) :
    h.Meets True (sequenceSize length) (.ok (A.make (.string (List.replicate length fill))))
      (Shows ground slots) (·.Represents ground A slots) (HeapM.makeString length fill h) := by
  refine hd.checked (fun hgt => ?_) fun hsize =>
    hd.makes_data (HeapM.makes_makeString hd.sound length fill hsize) rfl trivial nofun
      fun {_ pos' g r} _ hw => ?_
  · rw [HeapM.makeString_eq]
    exact HeapM.checkSize_large hgt
  · have hlength := HeapM.length_lt_of_size hsize
    have hcodes : (List.replicate length fill.toNat).map charOfCode = List.replicate length fill := by
      rw [List.map_replicate, charOfCode_toNat]
    have hcontent : g.content r = .string (List.replicate length fill.toNat) :=
      content_string (by rwa [List.length_replicate])
        (fun x hx => List.eq_of_mem_replicate hx ▸ HeapM.char_lt fill)
        (by rwa [List.length_replicate])
    rw [hcontent, ← hcodes]
    exact .string _

theorem makeVector (length : Nat) (hi : pos i r) :
    h.Meets True (sequenceSize length) (.ok (A.make (.vector (List.replicate length i))))
      (Shows ground slots) (·.Represents ground A slots) (HeapM.makeVector length r h) := by
  refine hd.checked (fun hgt => ?_) fun hsize =>
    hd.makes_data (HeapM.makes_makeVector hd.sound length (hd.mem hi) hsize) rfl
      (fun x hx => List.eq_of_mem_replicate hx ▸ Nat.lt_succ_of_lt (hd.lt hi)) nofun
      fun {place pos' g t} hplace hw => ?_
  · rw [HeapM.makeVector_eq]
    exact HeapM.checkSize_large hgt
  · obtain ⟨hlt, hpos⟩ := hplace r (by simp)
    have hcontent : g.content t = .vector (List.replicate length (place r)) :=
      content_vector (by rw [List.length_replicate]; exact HeapM.length_lt_of_size hsize)
        (fun x hx => List.eq_of_mem_replicate hx ▸ hlt) (by rwa [List.length_replicate])
    rw [hcontent]
    refine .vector (List.forall₂_iff_get.mpr ⟨by simp, fun k hk hk' => ?_⟩)
    simpa using hpos i hi

end

/-! Updates. -/

section

variable (hd : Portrays ground A slots pos h)
include hd

/-- Other records than the one that is changed are what they were. -/
theorem at_other {j q : Nat} (hset : FieldSet h.records h.memory r k t m)
    (hsame : SameScopes h { h with memory := m }) (hg : { h with memory := m }.Sound ground.rules)
    (hkind : h.memory.kind r ≠ .binding) (hj : pos j q) (hne : q ≠ r) (hat : item.At pos h q) :
    item.At pos { h with memory := m } q := by
  have hq := hd.mem hj
  have hmatch := hset.matches_other hq hne
  cases hat with
  | symbol hk hname => exact .symbol (hmatch.kind.trans hk) ((hmatch.nameBytes hk).trans hname)
  | frame hk houter hvars =>
    have hzero : 0 ∈ h.memory.referenceFields q := by rw [environment_references hk]; decide
    refine .frame (hmatch.kind.trans hk) ?_ fun s t hst => ?_
    · rw [show m.field q 0 = h.memory.field q 0 from hmatch.reference_eq hzero]
      exact houter
    · have hbound : { h with memory := m }.bound q t = h.bound q t :=
        hsame.bound hd.ranged hd.sound hg hq hk (Or.inr ⟨j, hj⟩) fun b hb hbinding =>
          (hset.matches_other hb fun heq => hkind (heq ▸ hbinding)).reference_eq
            (mem_binding_references hbinding (by decide))
      rw [hbound]
      exact hvars s t hst
  | data hres =>
    refine .data ?_
    rw [content_other hset hq hne]
    exact hres
  | singleton hmem => exact .singleton hmem
  | binding hk => exact .binding (hmatch.kind.trans hk)

/-- A record that is changed is another thing under the same number. -/
theorem replace (hi : pos i r) (hset : FieldSet h.records h.memory r k t m)
    (hkind : h.memory.kind r ∈ [.pair, .string, .vector])
    (ht : k ∈ h.memory.referenceFields r → t ∈ h.records)
    (hres : item.Resembles pos ({ h with memory := m }.content r))
    (hclosed : item.Closed i A.items.length) :
    Portrays ground (A.replace i item) slots pos { h with memory := m } := by
  have hplain : h.memory.kind r ≠ .symbol ∧ h.memory.kind r ≠ .environment ∧
      h.memory.kind r ≠ .binding ∧ h.memory.kind r ≠ .closure ∧
      (h.memory.kind r).Fits ground.rules k r (h.memory.kind t) t := by
    simp only [List.mem_cons, List.not_mem_nil, or_false] at hkind
    rcases hkind with hk | hk | hk <;> rw [hk] <;> exact ⟨nofun, nofun, nofun, nofun, trivial⟩
  obtain ⟨hsymbol, hframe, hbinding, hclosure, hfits⟩ := hplain
  have hg := hd.sound.setField hset fun hk => Or.inr ⟨ht hk, hfits⟩
  have hsame : SameScopes h { h with memory := m } := hd.sound.sameScopes_setField hset hframe
    (fun hk => absurd hk hbinding) fun hk => absurd hk hsymbol
  obtain ⟨rs, htable⟩ := hd.ranged.table
  have hranged : ground.Ranged pos { h with memory := m } := hsame.ranged hd.sound hg hd.ranged
    ⟨rs, (hd.sound.sameSymbols_setField hset hsymbol).table htable⟩ fun _ _ hf => hf
  have hrecords := hd.sound.records_setField hset
  have hlt := hd.lt hi
  have hlength : (A.replace i item).items.length = A.items.length := List.length_set ..
  have hitem : item.kind = h.memory.kind r := hres.kind_eq.symm.trans (hset.kind (hd.mem hi))
  have hold : ∀ {j other}, (A.replace i item).items[j]? = some other →
      (j = i ∧ other = item) ∨ (j ≠ i ∧ A.items[j]? = some other) := fun {j other} hj => by
    by_cases heq : j = i
    · subst heq
      rw [Store.replace, List.getElem?_set_self hlt] at hj
      exact Or.inl ⟨rfl, (Option.some.inj hj).symm⟩
    · rw [Store.replace, List.getElem?_set_ne (Ne.symm heq)] at hj
      exact Or.inr ⟨heq, hj⟩
  have hkinds : ∀ j, ((A.replace i item).item j).kind = (A.item j).kind := fun j => by
    by_cases heq : j = i
    · subst heq
      rw [Store.item, Store.replace, List.getElem?_set_self hlt, Option.getD_some, hitem,
        hd.kind hi]
    · rw [Store.item, Store.replace, List.getElem?_set_ne (Ne.symm heq)]
      rfl
  refine ⟨⟨hg, hranged, fun {j other} hj => ?_, hd.functional, hd.injective,
    fun hj => hrecords ▸ hd.mem hj, fun {j s} hj => ?_, hd.slots, hd.null, fun s hs hk => ?_,
    fun {j name} hj => ?_⟩, hd.stays, fun hj => ?_, fun j c hj => ?_⟩
  · rw [hlength]
    rcases hold hj with ⟨rfl, rfl⟩ | ⟨-, hj⟩
    · exact hclosed
    · exact hd.closed hj
  · by_cases heq : j = i
    · subst heq
      obtain rfl := hd.functional hi hj
      exact ⟨item, List.getElem?_set_self hlt, .data hres⟩
    · obtain ⟨other, hother, hat⟩ := hd.item hj
      refine ⟨other, (List.getElem?_set_ne (Ne.symm heq)).trans hother, ?_⟩
      exact hd.at_other hset hsame hg hbinding hj (fun hsr => heq (hd.injective hj (hsr ▸ hi)))
        hat
  · rw [hrecords] at hs
    exact hd.symbol s hs ((hset.kind hs).symm.trans hk)
  · rcases hold hj with ⟨rfl, rfl⟩ | ⟨-, hj⟩
    · exact ⟨r, hi⟩
    · exact hd.placed hj
  · exact (hd.sound.lasts_setField hset (hd.mem (hd.stays hj))).pinned.trans (hd.pinned hj)
  · rw [hkinds]
    rcases hold hj with ⟨rfl, rfl⟩ | ⟨-, hj⟩
    · exact absurd hitem.symm hclosure
    · exact hd.captured j c hj

/-- An update of a field of a record, once it is known to be in place. -/
theorem setField (hi : pos i r) (hkind : h.memory.kind r ∈ [.pair, .string, .vector])
    (hk : h.memory.Settable r k) (ht : k ∈ h.memory.referenceFields r → t ∈ h.records)
    (hlt : t < 4294967296) (hres : item.Resembles pos ((h.content r).put k t))
    (hclosed : item.Closed i A.items.length) :
    h.Meets True 0 (.ok (A.replace i item)) (fun B _ g => g.Represents ground B slots)
      (·.Represents ground A slots) (HeapM.setField r k t h) := by
  have hset := fieldSet_setField hd.sound.wf.tiled hd.sound.wf.top_le (hd.mem hi) hk hlt
  have hrun : HeapM.setField r k t h =
    .ok () { h with memory := h.memory.setField r k t } := rfl
  rw [hrun]
  generalize h.memory.setField r k t = m at hset
  refine .ok rfl ⟨pos, hd.replace hi hset hkind ht ?_ hclosed⟩ (Nat.le_refl _)
  have hcontent : Heap.content { h with memory := m } r = (h.content r).put k t :=
    content_put hset (hd.mem hi) (by
      simp only [List.mem_cons, List.not_mem_nil, or_false] at hkind ⊢
      tauto) hk
  rwa [hcontent]

theorem setPair {i r j t k : Nat} {change : Nat → Nat → Item} {expected : Except Fault Store}
    (hi : pos i r) (hj : pos j t) (hk : k ∈ [0, 1])
    (hpair : ∀ {car cdr}, A.item i = .pair car cdr → expected = .ok (A.replace i (change car cdr)))
    (hother : (A.item i).kind ≠ .pair → expected = .error (.wrongType "pair" (A.typeName i)))
    (hchange : ∀ {car cdr a d}, pos car a → pos cdr d →
      (change car cdr).Resembles pos ((Content.pair a d).put k t))
    (hclosed : ∀ {car cdr}, car < A.items.length → cdr < A.items.length →
      (change car cdr).Closed i A.items.length) :
    h.Meets True 0 expected (fun B _ g => g.Represents ground B slots) (·.Represents ground A slots)
      ((do
        HeapM.query (·.expectKind .pair "pair" r)
        HeapM.setField r k t : HeapM Unit) h) := by
  rw [HeapM.query_bind]
  unfold Heap.expectKind
  by_cases hkind : h.memory.kind r = .pair
  · have hfields : h.memory.referenceFields r = [0, 1] := by simp only [referenceFields, hkind]
    have hcontent : h.content r = .pair (h.memory.field r 0) (h.memory.field r 1) := by
      simp only [Heap.content, Heap.kind, hkind]
      rfl
    obtain ⟨car, cdr, hitem, hcar, hcdr⟩ := (hd.item_at hi).eq_pair hd.sound hkind
    rw [hpair hitem]
    simp only [Heap.kind, hkind, if_true]
    refine hd.setField hi (by rw [hkind]; decide) (Or.inl (hfields ▸ hk)) (fun _ => hd.mem hj)
      (Nat.lt_trans (hd.sound.wf.lt_top (hd.mem hj)) hd.sound.wf.top_lt) ?_
      (hclosed (hd.lt hcar) (hd.lt hcdr))
    rw [hcontent]
    exact hchange hcar hcdr
  · rw [hother (by rw [hd.kind hi]; exact hkind), hd.typeName hi]
    simp only [Heap.kind, hkind, if_false]
    exact .refused rfl ⟨pos, hd⟩

theorem setCar (hi : pos i r) (hj : pos j t) :
    h.Meets True 0 (A.setCar i j) (fun B _ g => g.Represents ground B slots)
      (·.Represents ground A slots) (HeapM.setCar r t h) := by
  refine @setPair _ _ _ _ _ hd _ _ _ _ _ (fun _ cdr => .pair j cdr) _ hi hj (by decide) (fun hitem => ?_)
    (fun hother => ?_) (fun _ hcdr => .pair hj hcdr) fun _ hcdr => ⟨hd.lt hj, hcdr⟩
  · unfold Store.setCar Store.cdrOf Store.ask
    rw [hitem]
    rfl
  · unfold Store.setCar Store.cdrOf Store.ask
    cases hitem : A.item i with
    | pair => exact absurd (by rw [hitem]; rfl) hother
    | _ => rfl

theorem setCdr (hi : pos i r) (hj : pos j t) :
    h.Meets True 0 (A.setCdr i j) (fun B _ g => g.Represents ground B slots)
      (·.Represents ground A slots) (HeapM.setCdr r t h) := by
  refine @setPair _ _ _ _ _ hd _ _ _ _ _ (fun car _ => .pair car j) _ hi hj (by decide) (fun hitem => ?_)
    (fun hother => ?_) (fun hcar _ => .pair hcar hj) fun hcar _ => ⟨hcar, hd.lt hj⟩
  · unfold Store.setCdr Store.carOf Store.ask
    rw [hitem]
    rfl
  · unfold Store.setCdr Store.carOf Store.ask
    cases hitem : A.item i with
    | pair => exact absurd (by rw [hitem]; rfl) hother
    | _ => rfl

theorem stringSet (hi : pos i r) (index : Int) (c : Char) :
    h.Meets True 0 (A.stringSet i index c) (fun B _ g => g.Represents ground B slots)
      (·.Represents ground A slots) (HeapM.stringSet r index c h) := by
  have htext := hd.textOf hi
  unfold Store.stringSet HeapM.stringSet
  rw [HeapM.query_bind]
  cases hstore : A.textOf i with
  | error fault =>
    rw [hstore] at htext
    generalize h.stringLength r = y at htext ⊢
    cases htext
    exact .refused rfl ⟨pos, hd⟩
  | ok text =>
    have hitem : A.item i = .string text := by
      unfold Store.textOf Store.ask at hstore
      cases hitem : A.item i with
      | string other =>
        rw [hitem] at hstore
        cases hstore
        rfl
      | _ =>
        rw [hitem] at hstore
        cases hstore
    have hkind : h.memory.kind r = .string := by rw [← hd.kind hi, hitem]; rfl
    rw [hstore] at htext
    generalize h.stringLength r = y at htext ⊢
    cases htext with
    | ok heq =>
      obtain ⟨rfl, rfl⟩ := heq
      simp only
      rw [HeapM.query_bind]
      change h.Meets True 0 (checkedIndex _ index >>= _) _ _ _
      cases hindex : checkedIndex ((h.elements r).map charOfCode).length index with
      | error fault => exact .refused rfl ⟨pos, hd⟩
      | ok k =>
        obtain ⟨-, hlt⟩ := checkedIndex_eq_ok hindex
        have hlt' : k < h.field r 0 := by simpa [Heap.elements] using hlt
        have hcontent : h.content r = .string (h.elements r) := by
          simp only [Heap.content, Heap.kind, hkind]
        refine hd.setField hi (by rw [hkind]; decide)
          (Or.inr ⟨hkind, Nat.le_add_right 1 k, by simp only [Heap.field] at hlt'; omega⟩)
          (fun hk => absurd hk (by simp [referenceFields, hkind])) (HeapM.char_lt c) ?_ trivial
        have hcodes : ((h.elements r).set k c.toNat).map charOfCode =
            ((h.elements r).map charOfCode).set k c := by
          rw [List.map_set, charOfCode_toNat]
        rw [hcontent, Content.put, Nat.add_sub_cancel_left, ← hcodes]
        exact .string _

theorem vectorSet (hi : pos i r) (index : Int) (hj : pos j t) :
    h.Meets True 0 (A.vectorSet i index j) (fun B _ g => g.Represents ground B slots)
      (·.Represents ground A slots) (HeapM.vectorSet r index t h) := by
  have helements := hd.elementsOf hi
  unfold Store.vectorSet HeapM.vectorSet
  rw [HeapM.query_bind]
  cases hstore : A.elementsOf i with
  | error fault =>
    rw [hstore] at helements
    generalize h.vectorLength r = y at helements ⊢
    cases helements
    exact .refused rfl ⟨pos, hd⟩
  | ok elements =>
    have hitem : A.item i = .vector elements := by
      unfold Store.elementsOf Store.ask at hstore
      cases hitem : A.item i with
      | vector other =>
        rw [hitem] at hstore
        cases hstore
        rfl
      | _ =>
        rw [hitem] at hstore
        cases hstore
    have hkind : h.memory.kind r = .vector := by rw [← hd.kind hi, hitem]; rfl
    rw [hstore] at helements
    generalize h.vectorLength r = y at helements ⊢
    cases helements with
    | ok heq =>
      obtain ⟨hall, rfl⟩ := heq
      simp only
      rw [HeapM.query_bind]
      change h.Meets True 0 (checkedIndex _ index >>= _) _ _ _
      cases hindex : checkedIndex elements.length index with
      | error fault => exact .refused rfl ⟨pos, hd⟩
      | ok k =>
        obtain ⟨-, hlt⟩ := checkedIndex_eq_ok hindex
        have hlt' : k < h.field r 0 := by
          rw [hall.length_eq] at hlt
          simpa [Heap.elements] using hlt
        have hmem : 1 + k ∈ h.memory.referenceFields r := by
          simp only [referenceFields, hkind]
          exact List.mem_range'_1.mpr (by simp only [Heap.field] at hlt'; omega)
        have hcontent : h.content r = .vector (h.elements r) := by
          simp only [Heap.content, Heap.kind, hkind]
        refine hd.setField hi (by rw [hkind]; decide) (Or.inl hmem) (fun _ => hd.mem hj)
          (Nat.lt_trans (hd.sound.wf.lt_top (hd.mem hj)) hd.sound.wf.top_lt) ?_ ?_
        · rw [hcontent, Content.put, Nat.add_sub_cancel_left]
          refine .vector (List.forall₂_iff_get.mpr ⟨by simp [hall.length_eq], fun l hl hl' => ?_⟩)
          simp only [List.get_eq_getElem, List.getElem_set]
          split
          · exact hj
          · exact (List.forall₂_iff_get.mp hall).2 l _ _
        · intro x hx
          rcases List.mem_or_eq_of_mem_set hx with hx | rfl
          · obtain ⟨s, hs⟩ := exists_of_forall₂ hall.flip x hx
            exact hd.lt hs
          · exact hd.lt hj

end

end Portrays

end ArenaScheme
