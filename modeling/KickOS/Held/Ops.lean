import KickOS.Held.Area

/-! The entries and the records after each operation. -/

namespace KickOS
namespace Held

open Lib.Buffer

variable {r s : Store} {cs : List (List Byte)} {es pre post : List Entry} {id : Byte} {dropped : Bool} {key : Key}
  {line : List Byte} {max : Nat}

/-! ### Bytes of a record -/

theorem recordBytes_append (i : Byte) (es fs : List Entry) : recordBytes i (es ++ fs) = recordBytes i es + recordBytes i fs := by
  rw [recordBytes, List.filter_append, List.flatMap_append, List.length_append]
  rfl

theorem recordBytes_mark (i : Byte) : recordBytes i [.mark id dropped key] = 0 := by
  rw [recordBytes_cons]
  split <;> rfl

theorem recordBytes_line (i : Byte) (bytes : List Byte) : recordBytes i [.line id bytes] = if id = i then
    bytes.length else 0 := by
  rw [recordBytes_cons]
  rfl

theorem recordBytes_others_le (i j : Byte) (es : List Entry) : recordBytes j (others i es) ≤ recordBytes j es := by
  induction es with
  | nil => exact le_rfl
  | cons e es ih =>
    by_cases h : e.id = i
    · rw [others_cons_of_eq h, recordBytes_cons]
      omega
    · rw [others_cons_of_ne h, recordBytes_cons, recordBytes_cons]
      omega

theorem length_lineBytes_mine (i : Byte) (es : List Entry) : (lineBytes (mine i es)).length = recordBytes i es := rfl

/-! ### Entries stored at the head -/

theorem Area.push {e : Entry} (h : Area r cs es) (hquiet : r.armed = false ∧ r.present = true)
    (hroom : e.encode.length ≤ r.size - r.heldHead) (hok : e.Ok) (hmarked : Marked ∅ (es ++ [e]))
    (hkeyed : ∀ {id id' dropped dropped' key}, Entry.mark id dropped key ∈ es ++ [e] →
      Entry.mark id' dropped' key ∈ es ++ [e] → id = id')
    (hcaps : ∀ i, recordBytes i (es ++ [e]) < 65536) :
    Area { r with buf := putAll r.buf r.heldHead e.encode, heldHead := r.heldHead + e.encode.length } cs (es ++ [e]) := by
  obtain ⟨hnew, hout⟩ := putAll_spec r.buf r.heldHead e.encode
  have hhead := h.head
  have hsize := h.room
  have hopen := h.opened
  have hfits : r.heldHead + e.encode.length ≤ r.size := by omega
  have hall : encodeAll (es ++ [e]) = encodeAll es ++ e.encode := by simp
  exact
    { records := h.records.below hout (by omega)
      opened := h.opened
      entries := by
        rw [hall]
        refine stands_append.mpr ⟨h.entries.below hout hhead.ge, ?_⟩
        rw [← hhead]
        exact hnew
      head := by
        rw [hall, List.length_append]
        show r.heldHead + e.encode.length = r.heldOpen + ((encodeAll es).length + e.encode.length)
        omega
      room := hfits
      lens := h.lens
      ok := fun f hf => (List.mem_append.mp hf).elim (h.ok f) fun hf => List.mem_singleton.mp hf ▸ hok
      marked := hmarked
      keyed := hkeyed
      caps := hcaps
      quiet := by
        rintro (ha | hp)
        · rw [hquiet.1] at ha
          cases ha
        · rw [hquiet.2] at hp
          cases hp }

theorem Area.openRecord (h : Area r cs es) (hquiet : r.armed = false ∧ r.present = true)
    (hnone : ∀ id dropped, Entry.mark id dropped key ∉ es) (ho : r.openRecord key = some s) :
    ∃ id, id ∉ ids es ∧ Area s cs (es ++ [.mark id false key]) ∧
      s = { r with buf := s.buf, heldHead := r.heldHead + mark } := by
  unfold Store.openRecord at ho
  simp only at ho
  split at ho
  · cases ho
  · rename_i hcond
    simp only [not_or, not_lt] at hcond
    obtain ⟨hlt, hfresh⟩ := h.freeId_spec hcond.1
    cases ho
    have hwrite : BitVec.ofNat 8 (r.freeId idCount 0) :: 0 :: Store.keyBytes key =
        (Entry.mark (BitVec.ofNat 8 (r.freeId idCount 0)) false key).encode := rfl
    refine ⟨BitVec.ofNat 8 (r.freeId idCount 0), hfresh, ?_, rfl⟩
    rw [hwrite]
    refine h.push hquiet hcond.2 (ofNat_id hlt) ?_ ?_ ?_
    · exact marked_append.mpr ⟨h.marked, fun hin => hfresh (hin.resolve_left id), trivial⟩
    · intro i i' d d' k hm hm'
      rcases List.mem_append.mp hm with hm | hm <;> rcases List.mem_append.mp hm' with hm' | hm'
      · exact h.keyed hm hm'
      · cases List.mem_singleton.mp hm'
        exact absurd hm (hnone _ _)
      · cases List.mem_singleton.mp hm
        exact absurd hm' (hnone _ _)
      · cases List.mem_singleton.mp hm
        cases List.mem_singleton.mp hm'
        rfl
    · intro i
      rw [recordBytes_append, recordBytes_mark]
      exact h.caps i

theorem Area.setDropped (h : Area r cs (pre ++ .mark id dropped key :: post)) (hd : dropped = false) :
    Area { r with buf := put r.buf (r.heldOpen + (encodeAll pre).length) (id ||| full) } cs
      (pre ++ .mark id true key :: post) := by
  subst hd
  have hout : SameOutside r.buf (put r.buf (r.heldOpen + (encodeAll pre).length) (id ||| full))
      (r.heldOpen + (encodeAll pre).length) (r.heldOpen + (encodeAll pre).length + 1) :=
      sameOutside_put le_rfl (by omega)
  have hopen := h.opened
  have hst := h.entries
  rw [encodeAll_append, encodeAll_cons] at hst
  obtain ⟨hpre, hmark⟩ := stands_append.mp hst
  obtain ⟨hmark, hpost⟩ := stands_append.mp hmark
  rw [length_encode_mark, mark] at hpost
  have hlen : (encodeAll (pre ++ .mark id true key :: post)).length = (encodeAll (pre ++ .mark id false key :: post)).length := by
    simp only [encodeAll_append, encodeAll_cons, List.length_append, length_encode_mark]
  have hmem : ∀ {i d k}, Entry.mark i d k ∈ pre ++ .mark id true key :: post →
      ∃ d', Entry.mark i d' k ∈ pre ++ .mark id false key :: post := by
    intro i d k hm
    rcases List.mem_append.mp hm with hm | hm
    · exact ⟨d, List.mem_append_left _ hm⟩
    · rcases List.mem_cons.mp hm with heq | hm
      · cases heq
        exact ⟨false, List.mem_append_right _ (List.mem_cons_self ..)⟩
      · exact ⟨d, List.mem_append_right _ (List.mem_cons_of_mem _ hm)⟩
  exact
    { records := h.records.below hout (by omega)
      opened := h.opened
      entries := by
        rw [encodeAll_append, encodeAll_cons]
        refine stands_append.mpr ⟨hpre.below hout le_rfl, stands_append.mpr ⟨⟨put_same, ?_⟩, ?_⟩⟩
        · exact Stands.above hmark.2 hout le_rfl
        · rw [length_encode_mark, mark]
          exact hpost.above hout (by omega)
      head := by
        rw [hlen]
        exact h.head
      room := h.room
      lens := h.lens
      ok := fun f hf => by
        rcases List.mem_append.mp hf with hf | hf
        · exact h.ok f (List.mem_append_left _ hf)
        · rcases List.mem_cons.mp hf with heq | hf
          · cases heq
            exact h.ok (.mark id false key) (List.mem_append_right _ (List.mem_cons_self ..))
          · exact h.ok f (List.mem_append_right _ (List.mem_cons_of_mem _ hf))
      marked := by
        obtain ⟨hp, hm⟩ := marked_append.mp h.marked
        exact marked_append.mpr ⟨hp, hm⟩
      keyed := fun hm hm' => by
        obtain ⟨d, hm⟩ := hmem hm
        obtain ⟨d', hm'⟩ := hmem hm'
        exact h.keyed hm hm'
      caps := fun i => by
        have := h.caps i
        rw [recordBytes_append, recordBytes_cons] at this ⊢
        exact this
      quiet := fun hq => absurd (h.quiet hq) (by simp) }

def grown (r : Store) (pre post : List Entry) (id : Byte) (dropped : Bool) (key : Key) (line : List Byte)
    (max : Nat) : List Entry :=
  if dropped = true ∨ line = [] then pre ++ .mark id dropped key :: post
  else if 255 < line.length ∨ max < recordBytes id (pre ++ .mark id dropped key :: post) + line.length ∨
      r.size - r.heldHead < lineHeader + line.length then
    pre ++ .mark id true key :: post
  else pre ++ .mark id dropped key :: post ++ [.line id line]

theorem Area.addLine (line : List Byte) (h : Area r cs (pre ++ .mark id dropped key :: post)) (hmax : max < 65536) :
    Area (r.addLine (r.heldOpen + (encodeAll pre).length) line max) cs (grown r pre post id dropped key line max) ∧
      (r.addLine (r.heldOpen + (encodeAll pre).length) line max).heldTaken = r.heldTaken := by
  have hmem : Entry.mark id dropped key ∈ pre ++ .mark id dropped key :: post := List.mem_append_right _ (List.mem_cons_self ..)
  have hokm : id &&& full = 0 := h.ok _ hmem
  have hst := h.entries
  rw [encodeAll_append, encodeAll_cons] at hst
  have hmark := (stands_append.mp (stands_append.mp hst).2).1
  have hidat : heldId r.buf (r.heldOpen + (encodeAll pre).length) = id := heldId_entry hmark (h.ok _ hmem)
  have hbyte := hmark.1
  obtain ⟨-, -, hset⟩ := id_bits id hokm
  have hfull : r.buf (r.heldOpen + (encodeAll pre).length) &&& full ≠ 0 ↔ dropped = true := by
    rw [hbyte]
    cases dropped with
    | false => simp [hokm]
    | true => simpa using hset
  have hbytes : r.heldRecordBytes id = recordBytes id (pre ++ .mark id dropped key :: post) := by
    rw [Store.heldRecordBytes, h.walk, foldl_places h.entries h.ok, Nat.zero_add]
  rw [Store.addLine, grown, hidat]
  simp only [hfull, hbytes]
  split
  · exact ⟨h, rfl⟩
  · rename_i hgo
    simp only [not_or, Bool.not_eq_true] at hgo
    obtain ⟨rfl, hne⟩ := hgo
    split
    · have hval : r.buf (r.heldOpen + (encodeAll pre).length) = id := hbyte
      rw [hval]
      exact ⟨h.setDropped rfl, rfl⟩
    · rename_i hfits
      simp only [not_or, not_lt] at hfits
      obtain ⟨hle, hcap, hroom⟩ := hfits
      have hquiet : r.armed = false ∧ r.present = true := by
        constructor
        · by_contra hc
          exact absurd (h.quiet (Or.inl (by simpa using hc))) (by simp)
        · by_contra hc
          exact absurd (h.quiet (Or.inr (by simpa using hc))) (by simp)
      refine ⟨?_, rfl⟩
      have harea := h.push (e := .line id line) hquiet (by rw [length_encode_line]; exact hroom) ⟨hokm, hne, hle⟩
        (marked_append.mpr ⟨h.marked, Or.inr ⟨false, key, hmem⟩, trivial⟩)
        (fun {i i' d d' k} hm hm' => by
          refine h.keyed ((List.mem_append.mp hm).resolve_right fun hc => ?_)
            ((List.mem_append.mp hm').resolve_right fun hc => ?_)
          · cases List.mem_singleton.mp hc
          · cases List.mem_singleton.mp hc)
        (fun i => by
          rw [recordBytes_append, recordBytes_line]
          have := h.caps i
          split
          · rename_i hi
            subst hi
            omega
          · exact this)
      rw [length_encode_line, ← Nat.add_assoc] at harea
      exact harea

/-! ### Records that leave -/

theorem Area.others (h : Area r cs es) (i : Byte) {b : Nat → Byte} {head lo : Nat} {cs' : List (List Byte)}
    (hrec : Stands b r.heldTail (cs'.flatMap record)) (hopen : lo = r.heldTail + (cs'.flatMap record).length)
    (hst : Stands b lo (encodeAll (others i es))) (hhead : head = lo + (encodeAll (others i es)).length) (hroom : head ≤ r.size)
    (hlens : ∀ c ∈ cs', c ≠ [] ∧ c.length < 65536) :
    Area { r with buf := b, heldHead := head, heldOpen := lo } cs' (others i es) where
  records := hrec
  opened := hopen
  entries := hst
  head := hhead
  room := hroom
  lens := hlens
  ok := fun f hf => h.ok f (List.mem_filter.mp hf).1
  marked := by
    have := h.marked.others (i := i)
    rwa [Set.empty_sdiff] at this
  keyed := fun hm hm' => h.keyed (List.mem_filter.mp hm).1 (List.mem_filter.mp hm').1
  caps := fun j => (recordBytes_others_le i j es).trans_lt (h.caps j)
  quiet := fun hq => by
    rw [h.quiet hq]
    rfl

theorem Area.heldDrop (h : Area r cs es) (i : Byte) :
    Area (r.heldDrop i) cs (Held.others i es) ∧ (r.heldDrop i).heldTaken = r.heldTaken := by
  have hfuel : es.length ≤ r.heldHead := by
    have := length_le_encodeAll es
    have := h.head
    omega
  obtain ⟨h₁, h₂, h₃⟩ := dropLoop_spec i h.entries h.ok h.head hfuel le_rfl
  have hle : (encodeAll (Held.others i es)).length ≤ (encodeAll es).length := by
    clear h₁ h₂ h₃ hfuel h
    induction es with
    | nil => exact le_rfl
    | cons e es ih =>
      by_cases heq : e.id = i
      · rw [others_cons_of_eq heq, encodeAll_cons, List.length_append]
        omega
      · rw [others_cons_of_ne heq, encodeAll_cons, encodeAll_cons, List.length_append, List.length_append]
        omega
  have hhead := h.head
  have hroom := h.room
  refine ⟨h.others i (h.records.below h₃ h.opened.ge) h.opened h₁ h₂ ?_ h.lens, rfl⟩
  rw [h₂]
  omega

/-- The queue with the record's bytes behind it; a record without a byte adds nothing. -/
def queued (cs : List (List Byte)) (bytes : List Byte) : List (List Byte) := cs ++ if bytes = [] then [] else [bytes]

theorem Area.gathered (h : Area r cs es) (hmem : Entry.mark id dropped key ∈ es) {g d : (Nat → Byte) × Nat}
    (hg : g = Store.gatherLoop id r.heldHead r.heldHead r.buf r.heldOpen r.heldOpen)
    (hd : d = Store.stripLoop g.2 r.heldHead g.1 (r.heldOpen + header) r.heldOpen) :
    Stands d.1 (r.heldOpen + header) (lineBytes (mine id es)) ∧ d.2 = r.heldOpen + header + (lineBytes (mine id es)).length ∧
      Stands d.1 g.2 (encodeAll (Held.others id es)) ∧ g.2 + (encodeAll (Held.others id es)).length = r.heldHead ∧ d.2 ≤ g.2 ∧
      (∀ i, i < r.heldOpen → d.1 i = r.buf i) := by
  have hlenle := length_le_encodeAll es
  have hhead := h.head
  have hstart : Stands r.buf r.heldOpen ([] ++ ([] ++ encodeAll es)) := h.entries
  obtain ⟨h₁, h₂, h₃⟩ := gatherLoop_spec id hstart h.ok (show r.heldOpen = r.heldOpen + ([] : List Byte).length from rfl)
    (show r.heldOpen = r.heldOpen + ([] : List Byte).length from rfl) hhead (by omega : es.length ≤ r.heldHead)
  rw [← hg, List.nil_append, List.nil_append] at h₁
  rw [← hg] at h₂ h₃
  obtain ⟨hmine, hothers⟩ := stands_append.mp h₁
  rw [← h₂] at hothers
  obtain ⟨ls, hls, hlines⟩ := h.marked.mine_eq hmem
  have hokm : ∀ e ∈ mine id es, e.Ok := fun e he => h.ok e (List.mem_filter.mp he).1
  -- the marker is passed over, and the lines are copied from behind it
  rw [hls] at hmine h₂ hokm
  obtain ⟨-, hrest, hfit, hne, -, hismark, hokls, hfin⟩ := reads_head hmine hokm h₂
  have hpos : 0 < r.heldHead := by
    have : 0 < es.length := List.length_pos_of_mem hmem
    omega
  obtain ⟨k, hk⟩ : ∃ k, r.heldHead = k + 1 := Nat.exists_eq_add_of_le' hpos
  have hkls : ls.length ≤ k := by
    have hle : (mine id es).length ≤ es.length := List.length_filter_le _ _
    rw [hls, List.length_cons] at hle
    omega
  have hstep : d = Store.stripLoop g.2 k g.1 (r.heldOpen + header) (r.heldOpen + mark) := by
    rw [hd, hk, Store.stripLoop, hfit, hismark]
    rfl
  have hlow : r.heldOpen + header ≤ r.heldOpen + mark := by
    rw [header, mark]
    omega
  obtain ⟨s₁, s₂, s₃⟩ := stripLoop_spec hrest hokls hfin hkls hlow
  rw [length_encode_mark] at s₁ s₂ s₃ hfin
  rw [← hstep] at s₁ s₂ s₃
  have hbytes : lineBytes (mine id es) = lineBytes ls := by
    rw [hls]
    rfl
  have hle := length_lineBytes_le ls
  have hcount : (encodeAll (mine id es)).length + (encodeAll (Held.others id es)).length = (encodeAll es).length := by
    clear * -
    induction es with
    | nil => rfl
    | cons e es ih =>
      by_cases heq : e.id = id
      · rw [mine_cons_of_eq heq, others_cons_of_eq heq, encodeAll_cons, encodeAll_cons, List.length_append, List.length_append]
        omega
      · rw [mine_cons_of_ne heq, others_cons_of_ne heq, encodeAll_cons, encodeAll_cons, List.length_append, List.length_append]
        omega
  rw [hls, encodeAll_cons, List.length_append, length_encode_mark] at hcount
  have hsix : mark = 6 := rfl
  have htwo : header = 2 := rfl
  rw [hbytes]
  refine ⟨s₁, s₂, hothers.above s₃ (by omega), by omega, by omega, fun i hi => ?_⟩
  exact (s₃ i (Or.inl (by omega))).trans (h₃ i (Or.inl hi))

theorem Area.commitRecord (h : Area r cs es) (hmem : Entry.mark id dropped key ∈ es) :
    Area (r.commitRecord id) (queued cs (lineBytes (mine id es))) (Held.others id es) ∧
      (r.commitRecord id).heldTaken = r.heldTaken := by
  obtain ⟨g, hg⟩ : ∃ g, g = Store.gatherLoop id r.heldHead r.heldHead r.buf r.heldOpen r.heldOpen := ⟨_, rfl⟩
  obtain ⟨d, hd⟩ : ∃ d, d = Store.stripLoop g.2 r.heldHead g.1 (r.heldOpen + header) r.heldOpen := ⟨_, rfl⟩
  obtain ⟨hbytes, hend, hothers, hhead, hle, hbelow⟩ := h.gathered hmem hg hd
  have hlen : d.2 - r.heldOpen - header = (lineBytes (mine id es)).length := by omega
  have hmove : r.heldHead - g.2 = (encodeAll (Held.others id es)).length := by omega
  have hopen := h.opened
  have hroom := h.room
  have htwo : header = 2 := rfl
  have hrecords : ∀ {b : Nat → Byte}, (∀ i, i < r.heldOpen → b i = d.1 i) → Stands b r.heldTail (cs.flatMap record) :=
    fun hb => h.records.congr fun i _ hi => (hb i (by omega)).trans (hbelow i (by omega))
  simp only [Store.commitRecord, ← hg, ← hd, hlen, hmove]
  by_cases hnil : lineBytes (mine id es) = []
  · -- nothing to keep of the record
    obtain ⟨hm, hout⟩ := moveDown_spec hothers (by omega : r.heldOpen ≤ g.2)
    simp only [List.length_nil, if_true, ne_eq, not_true_eq_false, if_false, queued, hnil, List.append_nil]
    refine ⟨h.others id (hrecords fun i hi => hout i (Or.inl hi)) hopen hm (by omega) (by omega) h.lens, trivial⟩
  · have hpos : (lineBytes (mine id es)).length ≠ 0 := fun h0 => hnil (List.length_eq_zero_iff.mp h0)
    obtain ⟨hm, hout⟩ := moveDown_spec hothers hle
    obtain ⟨b, hb⟩ : ∃ b, b = moveDown d.1 d.2 g.2 (encodeAll (Held.others id es)).length := ⟨_, rfl⟩
    rw [← hb] at hm hout
    obtain ⟨hput, hpout⟩ := putAll_spec b r.heldOpen
      [BitVec.ofNat 8 (lineBytes (mine id es)).length, BitVec.ofNat 8 ((lineBytes (mine id es)).length >>> 8)]
    have hpout : SameOutside b _ r.heldOpen (r.heldOpen + 2) := hpout
    simp only [hpos, if_false, ne_eq, not_false_eq_true, if_true, queued, hnil, ← hb]
    have hflat : (cs ++ [lineBytes (mine id es)]).flatMap record = cs.flatMap record ++ record (lineBytes (mine id es)) := by simp
    refine ⟨h.others id ?_ ?_ ?_ (by omega) (by omega) ?_, trivial⟩
    · rw [hflat]
      refine stands_append.mpr ⟨hrecords fun i hi => (hpout i (Or.inl hi)).trans (hout i (Or.inl (by omega))), ?_⟩
      rw [← hopen]
      refine ⟨hput.1, hput.2.1, ?_⟩
      have hcopy : Stands b (r.heldOpen + 2) (lineBytes (mine id es)) := hbytes.below hout (by omega)
      exact hcopy.above hpout le_rfl
    · rw [hflat, List.length_append, length_record]
      omega
    · exact hm.above hpout (by omega)
    · intro c hc
      rcases List.mem_append.mp hc with hc | hc
      · exact h.lens c hc
      · rw [List.mem_singleton.mp hc]
        exact ⟨hnil, h.caps id⟩

end Held
end KickOS
