import KickOS.Tls.Block

/-! Every thread has its own copy of every object: the blocks of the threads lie apart, and the calls of a run keep what
holds of each block. -/

namespace KickOS.Tls

open Lib.Buffer
open Function (update update_of_ne update_self)

/-- What holds in every state of a run. -/
structure Inv (im : Image) (x : St) : Prop where
  blocks : ∀ th, x.seated th = true → BlockOk im x.mem (im.tp th) (x.handed th)
  fresh : ∀ th, x.seated th = false → ∀ i, x.handed th i = none
  answers : ∀ th i p, (th, i, p) ∈ x.answers → ∃ e, x.handed th i = some e ∧ p = im.tp th + e.off
  answered : ∀ th i e, x.handed th i = some e → (th, i, im.tp th + e.off) ∈ x.answers

section Runs

variable {im : Image} {x : St} {acts : List Act}

theorem Inv.seated (hx : Inv im x) {th i : Nat} {e : Extent} (he : x.handed th i = some e) : x.seated th = true := by
  cases hs : x.seated th with
  | true => rfl
  | false =>
    rw [hx.fresh th hs i] at he
    cases he

theorem St.seat_mem (x : St) (im : Image) (th : Nat) : (x.seat im th).mem = tlsSeat x.mem (im.tp th) := by simp only [St.seat]

theorem Inv.seat (hx : Inv im x) (hroom : im.dataStart < blockBytes) (th : Nat) : Inv im (x.seat im th) := by
  have hsame : SameOutside x.mem (x.seat im th).mem (im.tp th) (im.tp th + blockBytes) := by
    rw [St.seat_mem]
    exact tlsSeat_sameOutside x.mem (im.tp th)
  have hself : (x.seat im th).handed th = fun _ => none := update_self ..
  have hother : ∀ th', th' ≠ th → (x.seat im th).handed th' = x.handed th' := fun th' hne => update_of_ne hne ..
  have hlive : ∀ th', th' ≠ th → (x.seat im th).seated th' = x.seated th' := fun th' hne => update_of_ne hne ..
  refine ⟨?_, ?_, ?_, ?_⟩
  · intro th' hs
    obtain rfl | hne := eq_or_ne th' th
    · rw [hself, St.seat_mem]
      exact blockOk_tlsSeat x.mem th' hroom
    · rw [hother th' hne]
      rw [hlive th' hne] at hs
      exact (hx.blocks th' hs).elsewhere hroom hne hsame
  · intro th' hs i
    obtain rfl | hne := eq_or_ne th' th
    · rw [hself]
    · rw [hother th' hne]
      rw [hlive th' hne] at hs
      exact hx.fresh th' hs i
  · intro th' i p hp
    obtain ⟨hp, hne⟩ := List.mem_filter.mp hp
    rw [hother th' (of_decide_eq_true hne)]
    exact hx.answers th' i p hp
  · intro th' i e he
    obtain rfl | hne := eq_or_ne th' th
    · rw [hself] at he
      cases he
    · rw [hother th' hne] at he
      exact List.mem_filter.mpr ⟨hx.answered th' i e he, decide_eq_true hne⟩

theorem Inv.access {th anchor sp index : Nat} {seen : EmutlsObject} {r : Mem × Nat} (hx : Inv im x)
    (hroom : im.dataStart < blockBytes) (hs : x.seated th = true) (hlo : th * im.stride < sp)
    (hhi : sp ≤ (th + 1) * im.stride) (hidx : im.indexOf anchor = some index)
    (hr : im.getAddress x.mem anchor sp seen = some r) : Inv im (x.answer im th index sp seen r) := by
  obtain ⟨hsame, hcase⟩ := (hx.blocks th hs).getAddress hlo hhi hidx hr
  have hanswers : (x.answer im th index sp seen r).answers = (th, index, im.tp th + r.2) :: x.answers := by
    rw [St.answer, Image.tpOf_eq hlo hhi]
  obtain ⟨e, he, hoff, hb⟩ | ⟨hnone, hb, -⟩ := hcase
  · have hhanded : (x.answer im th index sp seen r).handed = x.handed := by
      rw [St.answer, he, Option.isSome_some, if_pos rfl]
    refine ⟨?_, ?_, ?_, ?_⟩
    · intro th' hs'
      rw [hhanded]
      obtain rfl | hne := eq_or_ne th' th
      · exact hb
      · exact (hx.blocks th' hs').elsewhere hroom hne hsame
    · rw [hhanded]
      exact hx.fresh
    · intro th' i p hp
      rw [hanswers] at hp
      rw [hhanded]
      obtain heq | hp := List.mem_cons.mp hp
      · cases heq
        exact ⟨e, he, by rw [hoff]⟩
      · exact hx.answers th' i p hp
    · intro th' i e' he'
      rw [hhanded] at he'
      rw [hanswers]
      exact List.mem_cons_of_mem _ (hx.answered th' i e' he')
  · have hhanded : (x.answer im th index sp seen r).handed =
        update x.handed th (update (x.handed th) index (some ⟨r.2, seen⟩)) := by
      rw [St.answer, hnone]
      rfl
    refine ⟨?_, ?_, ?_, ?_⟩
    · intro th' hs'
      rw [hhanded]
      obtain rfl | hne := eq_or_ne th' th
      · rw [update_self]
        exact hb
      · rw [update_of_ne hne]
        exact (hx.blocks th' hs').elsewhere hroom hne hsame
    · intro th' hs' i
      have hne : th' ≠ th := by
        rintro rfl
        rw [show x.seated th' = false from hs'] at hs
        cases hs
      rw [hhanded, update_of_ne hne]
      exact hx.fresh th' hs' i
    · intro th' i p hp
      rw [hanswers] at hp
      rw [hhanded]
      obtain heq | hp := List.mem_cons.mp hp
      · cases heq
        exact ⟨⟨r.2, seen⟩, by simp, rfl⟩
      · obtain ⟨e, he, rfl⟩ := hx.answers th' i p hp
        refine ⟨e, ?_, rfl⟩
        obtain rfl | hne := eq_or_ne th' th
        · obtain rfl | hne' := eq_or_ne i index
          · rw [hnone] at he
            cases he
          · rw [update_self, update_of_ne hne', he]
        · rw [update_of_ne hne, he]
    · intro th' i e he
      rw [hhanded] at he
      rw [hanswers]
      obtain rfl | hne := eq_or_ne th' th
      · obtain rfl | hne' := eq_or_ne i index
        · rw [update_self, update_self, Option.some.injEq] at he
          subst he
          exact List.mem_cons_self
        · rw [update_self, update_of_ne hne'] at he
          exact List.mem_cons_of_mem _ (hx.answered th' i e he)
      · rw [update_of_ne hne] at he
        exact List.mem_cons_of_mem _ (hx.answered th' i e he)

theorem Inv.store {place : Nat} (hx : Inv im x) (v : BitVec 8)
    (hplace : ∀ th, x.seated th = true → place < im.tp th ∨ im.tp th + im.dataStart ≤ place) :
      Inv im { x with mem := put x.mem place v } := by
  refine ⟨fun th hs => (hx.blocks th hs).frame fun k hk => put_other ?_, hx.fresh, hx.answers, hx.answered⟩
  have := hplace th hs
  omega

theorem Runs.inv (hroom : im.dataStart < blockBytes) (h : Runs im acts x) : Inv im x := by
  induction h with
  | start mem =>
    refine ⟨?_, fun _ _ _ => rfl, ?_, ?_⟩
    · intro th hs
      cases hs
    · intro th i p hp
      cases hp
    · intro th i e he
      cases he
  | seat th _ ih => exact ih.seat hroom th
  | access _ hs hlo hhi hidx hr ih => exact ih.access hroom hs hlo hhi hidx hr
  | store v _ hplace ih => exact ih.store v hplace

theorem getAddress_no_room {mem : Mem} {anchor sp : Nat} {seen : EmutlsObject} (hroom : ¬ im.dataStart < blockBytes) :
    im.getAddress mem anchor sp seen = none := by
  unfold Image.getAddress
  split
  · rfl
  · split
    · rfl
    · rw [if_pos (not_lt.mp hroom)]

theorem Runs.no_room (hroom : ¬ im.dataStart < blockBytes) (h : Runs im acts x) : (∀ th i, x.handed th i = none) ∧
    x.answers = [] := by
  induction h with
  | start mem => exact ⟨fun _ _ => rfl, rfl⟩
  | @seat _ x th _ ih =>
    refine ⟨fun th' i => ?_, by rw [St.seat, ih.2]; rfl⟩
    obtain rfl | hne := eq_or_ne th' th
    · have hself : (x.seat im th').handed th' = fun _ => none := update_self ..
      rw [hself]
    · have hother : (x.seat im th).handed th' = x.handed th' := update_of_ne hne ..
      rw [hother]
      exact ih.1 th' i
  | access _ _ _ _ _ hr _ =>
    rw [getAddress_no_room hroom] at hr
    cases hr
  | store _ _ _ ih => exact ih

theorem Runs.inv_of_seated (h : Runs im acts x) : ∃ seated, Inv im { x with seated := seated } := by
  by_cases hroom : im.dataStart < blockBytes
  · exact ⟨x.seated, h.inv hroom⟩
  · obtain ⟨hhanded, hanswers⟩ := h.no_room hroom
    refine ⟨fun _ => false, ?_, fun th _ i => hhanded th i, ?_, ?_⟩
    · intro th hs
      cases hs
    · intro th i p hp
      rw [hanswers] at hp
      cases hp
    · intro th i e he
      rw [hhanded th i] at he
      cases he

/-- Every access of a run found the control block as the image has it. -/
def Honest (im : Image) (acts : List Act) : Prop :=
  ∀ th anchor sp seen index, .access th anchor sp seen ∈ acts → im.indexOf anchor = some index → seen = im.object index

theorem Honest.left {acts' : List Act} (h : Honest im (acts ++ acts')) : Honest im acts :=
  fun th anchor sp seen index hmem => h th anchor sp seen index (List.mem_append_left acts' hmem)

/-- What a thread was given of an object is the object, where the control blocks were left alone. -/
theorem Runs.object (h : Runs im acts x) (hh : Honest im acts) {th i : Nat} {e : Extent} (he : x.handed th i = some e) :
    e.object = im.object i := by
  induction h generalizing th i e with
  | start mem => cases he
  | @seat _ x th' _ ih =>
    obtain rfl | hne := eq_or_ne th th'
    · have hself : (x.seat im th).handed th = fun _ => none := update_self ..
      rw [hself] at he
      cases he
    · have hother : (x.seat im th').handed th = x.handed th := update_of_ne hne ..
      rw [hother] at he
      exact ih hh.left he
  | @access acts x th' anchor sp index seen r _ _ _ _ hidx _ ih =>
    have hseen := hh th' anchor sp seen index (List.mem_append_right acts List.mem_cons_self) hidx
    unfold St.answer at he
    simp only at he
    split at he
    · exact ih hh.left he
    · obtain rfl | hne := eq_or_ne th th'
      · rw [update_self] at he
        obtain rfl | hne' := eq_or_ne i index
        · rw [update_self, Option.some.injEq] at he
          rw [← he]
          exact hseen
        · rw [update_of_ne hne'] at he
          exact ih hh.left he
      · rw [update_of_ne hne] at he
        exact ih hh.left he
  | store _ _ _ ih => exact ih hh.left he

theorem Inv.one_address (hx : Inv im x) {th i p q : Nat} (hp : (th, i, p) ∈ x.answers) (hq : (th, i, q) ∈ x.answers) : p = q := by
  obtain ⟨e, he, rfl⟩ := hx.answers th i p hp
  obtain ⟨e', he', rfl⟩ := hx.answers th i q hq
  rw [he, Option.some.injEq] at he'
  rw [he']

theorem Inv.block (hx : Inv im x) {th i : Nat} {e : Extent} (he : x.handed th i = some e) :
    BlockOk im x.mem (im.tp th) (x.handed th) :=
  hx.blocks th (hx.seated he)

theorem Inv.aligned (hx : Inv im x) {th i : Nat} {e : Extent} (he : x.handed th i = some e) :
    e.object.align ∣ im.tp th + e.off := by
  obtain ⟨k, hk, halign, hdvd⟩ := (hx.block he).aligned i e he
  rw [halign]
  exact dvd_add (im.align_dvd_tp th hk) hdvd

theorem Inv.extent (hx : Inv im x) {th i : Nat} {e : Extent} (he : x.handed th i = some e) :
    headerBytes + 2 * im.nslots ≤ e.off ∧ e.off + e.object.size ≤ blockBytes ∧
      ∀ j e', j ≠ i → x.handed th j = some e' → e.off + e.object.size ≤ e'.off ∨ e'.off + e'.object.size ≤ e.off := by
  obtain ⟨-, hstart, -, hend⟩ := (hx.block he).inside i e he
  exact ⟨im.table_le.trans hstart, hend, fun j e' hne he' => (hx.block he).apart i j e e' hne.symm he he'⟩

/-- One access from a state of a run: it writes in the block of its thread alone, and a first one leaves the template or zeros. -/
theorem Runs.access_spec (h : Runs im acts x) {th anchor sp index : Nat} {seen : EmutlsObject} {r : Mem × Nat}
    (hs : x.seated th = true) (hlo : th * im.stride < sp) (hhi : sp ≤ (th + 1) * im.stride)
    (hidx : im.indexOf anchor = some index) (hr : im.getAddress x.mem anchor sp seen = some r) :
    SameOutside x.mem r.1 (im.tp th) (im.tp th + blockBytes) ∧
      ((∀ p, (th, index, p) ∉ x.answers) → Stands r.1 (im.tpOf sp + r.2) (BlockOk.template im seen)) := by
  have hroom : im.dataStart < blockBytes := by
    by_contra hroom
    rw [getAddress_no_room hroom] at hr
    cases hr
  have hx := h.inv hroom
  obtain ⟨hsame, hcase⟩ := (hx.blocks th hs).getAddress hlo hhi hidx hr
  refine ⟨hsame, fun hfirst => ?_⟩
  obtain ⟨e, he, -, -⟩ | ⟨-, -, hstands⟩ := hcase
  · exact absurd (hx.answered th index e he) (hfirst _)
  · rw [Image.tpOf_eq hlo hhi]
    exact hstands

end Runs

/-- The addresses of thread-local objects, in every run. A thread is answered one address for an object. Where the
control blocks are as the image has them, the address is aligned, and the object lies in the thread's block past the
table and apart from the thread's other objects. A first access leaves the template or zeros there. Whatever the control
blocks say, what a thread is given lies in its own block past the table, apart from what it was given before, and an
access writes nothing outside the block. -/
theorem thread_local_addresses (im : Image) {acts : List Act} {x : St} (h : Runs im acts x) :
    (∀ th i p q, (th, i, p) ∈ x.answers → (th, i, q) ∈ x.answers → p = q) ∧
    (Honest im acts → ∀ th i p, (th, i, p) ∈ x.answers →
      (im.object i).align ∣ p ∧ im.tp th + headerBytes + 2 * im.nslots ≤ p ∧ p + (im.object i).size ≤ im.tp th + blockBytes ∧
      ∀ j q, j ≠ i → (th, j, q) ∈ x.answers → p + (im.object i).size ≤ q ∨ q + (im.object j).size ≤ p) ∧
    (∀ th anchor sp index seen r, x.seated th = true → th * im.stride < sp → sp ≤ (th + 1) * im.stride →
      im.indexOf anchor = some index → im.getAddress x.mem anchor sp seen = some r →
      SameOutside x.mem r.1 (im.tp th) (im.tp th + blockBytes) ∧
      ((∀ p, (th, index, p) ∉ x.answers) → Stands r.1 (im.tpOf sp + r.2) (BlockOk.template im seen))) ∧
    (∀ th i p, (th, i, p) ∈ x.answers → ∃ e, x.handed th i = some e ∧ p = im.tp th + e.off ∧
      headerBytes + 2 * im.nslots ≤ e.off ∧ e.off + e.object.size ≤ blockBytes ∧
      ∀ j e', j ≠ i → x.handed th j = some e' → e.off + e.object.size ≤ e'.off ∨ e'.off + e'.object.size ≤ e.off) := by
  obtain ⟨seated, hx⟩ := h.inv_of_seated
  refine ⟨fun th i p q => hx.one_address, ?_, fun th anchor sp index seen r => h.access_spec, ?_⟩
  · intro hh th i p hp
    obtain ⟨e, he, rfl⟩ := hx.answers th i p hp
    have hobject := h.object hh he
    have halign := hx.aligned he
    obtain ⟨hstart, hend, hapart⟩ := hx.extent he
    rw [hobject] at halign hend hapart
    refine ⟨halign, by omega, by omega, fun j q hne hq => ?_⟩
    obtain ⟨e', he', rfl⟩ := hx.answers th j q hq
    have hobject' := h.object hh he'
    have hdis := hapart j e' hne he'
    rw [hobject'] at hdis
    omega
  · intro th i p hp
    obtain ⟨e, he, rfl⟩ := hx.answers th i p hp
    exact ⟨e, he, rfl, hx.extent he⟩

/-- An image with a counter and a table that has a template. -/
def twoObjects : Image where
  vstart := 0x1000
  nslots := 2
  object i := if i = 0 then ⟨4, 4, none⟩ else ⟨24, 8, some 0x800⟩
  code _ := 7
  codeStart := 0x400
  codeEnd := 0x900
  tlsTotal := 256
  strideLog := 13
  reentCarve := 64
  stride_large := by omega
  carve_aligned := ⟨8, rfl⟩
  carve_fits := by norm_num [blockBytes]

theorem thread_local_addresses_twoObjects :
    ∃ acts x, Runs twoObjects acts x ∧ acts.length = 3 ∧ x.answers.length = 2 ∧
      ∀ th i p q, (th, i, p) ∈ x.answers → (th, i, q) ∈ x.answers → p = q := by
  obtain ⟨mem, hmem⟩ : ∃ mem : Mem, mem = fun _ => 9 := ⟨_, rfl⟩
  have hstart := (@Runs.start twoObjects mem).seat 1
  have hcalls : ((twoObjects.getAddress (St.seat { mem := mem } twoObjects 1).mem 0x1000 0x4000
      (twoObjects.object 0)).bind fun r =>
      twoObjects.getAddress r.1 0x1010 0x3f00 (twoObjects.object 1)).isSome = true := by
    subst hmem
    decide +kernel
  obtain ⟨r', hcalls⟩ := Option.isSome_iff_exists.mp hcalls
  obtain ⟨r, hr, hr'⟩ := Option.bind_eq_some_iff.mp hcalls
  have hseated : (St.seat { mem := mem } twoObjects 1).seated 1 = true := rfl
  have hbase : 1 * twoObjects.stride < 0x3f00 := by decide
  have htop : 0x4000 ≤ (1 + 1) * twoObjects.stride := by decide
  have hcounter : twoObjects.indexOf 0x1000 = some 0 := by decide
  have htable : twoObjects.indexOf 0x1010 = some 1 := by decide
  have hfirst := hstart.access hseated (by omega) htop hcounter hr
  have hrun := @Runs.access twoObjects _ _ 1 0x1010 0x3f00 1 _ r' hfirst hseated hbase (by omega) htable hr'
  exact ⟨_, _, hrun, rfl, rfl, (thread_local_addresses twoObjects hrun).1⟩

end KickOS.Tls
