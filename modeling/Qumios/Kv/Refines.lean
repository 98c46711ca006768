import Qumios.Kv.Steps

/-! The manager on a laid-out log does what the log's function says.

Each lemma has the form `f (l.conc cfg) = ((Log.f l).conc cfg, …)`: from the raw
operations up to the calls. -/
namespace Qumios.Kv
open Nor List

section Lists
variable {α : Type} {xs : List α} {i : Nat} {a : α}

theorem modify_eq_set (h : xs[i]? = some a) (f : α → α) : xs.modify i f = xs.set i (f a) := by
  rw [modify_eq_set_getElem?, h]
  rfl

theorem set_eq_self (h : xs[i]? = some a) : xs.set i a = xs := by
  obtain ⟨hi, rfl⟩ := List.getElem?_eq_some_iff.mp h
  exact List.set_getElem_self hi

theorem getElem?_set_cases {j : Nat} {c : α} (h : (xs.set i a)[j]? = some c) :
    i = j ∧ c = a ∨ i ≠ j ∧ xs[j]? = some c := by
  by_cases hij : i = j
  · rw [← hij, getElem?_set] at h
    simp only [if_true] at h
    split at h
    · exact .inl ⟨hij, (Option.some.inj h).symm⟩
    · cases h
  · rw [getElem?_set_ne hij] at h
    exact .inr ⟨hij, h⟩

end Lists

/-! ### Raw operations -/

namespace Log
variable {cfg : Config} {l : Log} {i : Nat} {b b' : Blk}

theorem blk_eq (h : l.blocks[i]? = some b) : l.blk i = b := by
  rw [blk, getD_eq_getElem?_getD, h]
  rfl

theorem blocks_of_lt (h : i < l.blocks.length) : l.blocks[i]? = some (l.blk i) := by
  rw [blk, getD_eq_getElem?_getD, getElem?_eq_getElem h]
  rfl

section
variable (h : l.blocks[i]? = some b)
include h

theorem conc_blockInfo : (l.conc cfg).blockInfo[i]? = some (b.info cfg) := by
  rw [conc, getElem?_map, h]
  rfl

theorem conc_info : (l.conc cfg).info i = b.info cfg := by
  rw [State.info, getD_eq_getElem?_getD, conc_blockInfo h]
  rfl

theorem put_blocks : (l.put i b').blocks[i]? = some b' := by
  have hi := (List.getElem?_eq_some_iff.mp h).1
  rw [put, List.getElem?_set, if_pos rfl, if_pos hi]
end

variable {j len : Nat} {e : Entry} {after before : List Entry} {l' : Log}

theorem put_blocks_ne (hne : i ≠ j) : (l.put i b').blocks[j]? = l.blocks[j]? := by
  rw [put, getElem?_set, if_neg hne]

theorem blk_put_self (h : i < l.blocks.length) (b' : Blk) : (l.put i b').blk i = b' := blk_eq (put_blocks (blocks_of_lt h))

theorem blk_put_ne (hne : i ≠ j) (b' : Blk) : (l.put i b').blk j = l.blk j := by
  rw [blk, blk, getD_eq_getElem?_getD, getD_eq_getElem?_getD, put_blocks_ne hne]

/-- The count of clean blocks, around one block. -/
theorem cleans_put (h : l.blocks[i]? = some b) (b' : Blk) :
    (l.put i b').cleans + (if b.mark = .clean then 1 else 0) = l.cleans + if b'.mark = .clean then 1 else 0 := by
  obtain ⟨hi, hb⟩ := List.getElem?_eq_some_iff.mp h
  have hpos : b.mark = .clean → 0 < l.blocks.countP fun b => b.mark = .clean := fun hm =>
    List.countP_pos_iff.mpr ⟨b, List.mem_of_getElem? h, by simpa using hm⟩
  simp only [cleans, put, List.countP_set hi, hb, decide_eq_true_eq]
  split
  · next hm =>
    have := hpos hm
    omega
  · omega

theorem conc_writePos (h : l.blocks[i]? = some b) (hfill : b'.fill cfg = b.fill cfg) :
    (l.conc cfg).writePos = ((l.put i b').conc cfg).writePos := by
  show l.cur * blkSize + (l.blk l.cur).fill cfg = l.cur * blkSize + ((l.put i b').blk l.cur).fill cfg
  by_cases hcur : i = l.cur
  · subst hcur
    rw [blk_eq h, blk_eq (put_blocks h), hfill]
  · rw [blk_put_ne hcur]

theorem conc_images {flash : Flash} (h : flash = flashOf cfg (l.blocks.set i b')) :
    l.images.map (flashOf cfg) ++ [flash] = ((l.put i b').conc cfg).images := by
  show _ = (l.images ++ [l.blocks.set i b']).map (flashOf cfg)
  rw [h, map_append]
  rfl

/-- A raw write that leaves a block as long as it was, and its mark. -/
theorem rawWrite_conc {pos : Nat} {data : Bytes} (h : l.blocks[i]? = some b)
    (hprogram : program (flashOf cfg l.blocks) pos data = flashOf cfg (l.blocks.set i b'))
    (hmark : b'.mark = b.mark) (hfill : b'.fill cfg = b.fill cfg) :
    rawWrite (l.conc cfg) pos data = (l.put i b').conc cfg := by
  have hcleans := cleans_put h b'
  rw [hmark] at hcleans
  have hinfo : b'.info cfg = b.info cfg := by rw [Blk.info, Blk.info, hmark, hfill]
  ext1
  · exact hprogram
  · rfl
  · exact (Nat.add_right_cancel hcleans).symm
  · exact conc_writePos h hfill
  · show l.blocks.map (Blk.info cfg) = (l.blocks.set i b').map (Blk.info cfg)
    rw [map_set, hinfo]
    exact (set_eq_self (conc_blockInfo h)).symm
  · exact conc_images hprogram
  · rfl

theorem u16_block (hi : i < 15) : u16 (i * blkSize) = i * blkSize := by
  refine u16_of_lt ?_
  simp only [blkSize]
  omega

theorem setState_conc (h : l.blocks[i]? = some b) (m : Mark) :
    (l.conc cfg).blockInfo.modify i (fun info => { info with state := m.byte }) =
      (l.put i { b with mark := m }).blocks.map (Blk.info cfg) := by
  rw [modify_eq_set (conc_blockInfo h), put, map_set]
  rfl

/-- Marking a block, up to the count of clean ones. -/
theorem mark_conc (cfg : Config) (m : Mark) (hi : i < 15) (h : l.blocks[i]? = some b) (hb : b.mark ≠ .blank) (hm : m ≠ .blank)
    (hbits : b.mark.byte &&& m.byte = m.byte) :
    (kvStateSet (l.conc cfg) (i * blkSize) m.byte).setState i m.byte =
      { (l.put i { b with mark := m }).conc cfg with cleanBlkNums := l.cleans } := by
  have hprogram : program (flashOf cfg l.blocks) (u16 (i * blkSize) + 1) [m.byte] =
      flashOf cfg (l.blocks.set i { b with mark := m }) := by
    rw [u16_block hi]
    exact program_mark cfg h hb hm hbits
  ext1
  · exact hprogram
  · rfl
  · rfl
  · have hfill : ({ b with mark := m } : Blk).fill cfg = b.fill cfg := rfl
    exact conc_writePos h hfill
  · exact setState_conc h m
  · exact conc_images hprogram
  · rfl

theorem dirty_conc (hi : i < 15) (h : l.blocks[i]? = some b) (hb : b.mark = .used) :
    (kvStateSet (l.conc cfg) (i * blkSize) BlkState.dirty).setState i BlkState.dirty =
      (l.put i ⟨.dirty, b.entries⟩).conc cfg := by
  have hcleans := cleans_put h ⟨.dirty, b.entries⟩
  rw [hb, if_neg (by decide), if_neg (show ¬ Mark.dirty = Mark.clean by decide)] at hcleans
  have hmark := mark_conc cfg .dirty hi h (by rw [hb]; decide) (by decide) (by rw [hb]; decide)
  rw [show l.cleans = (l.put i { b with mark := .dirty }).cleans from hcleans.symm] at hmark
  exact hmark

theorem used_conc (cfg : Config) (hi : i < 15) (h : l.blocks[i]? = some b) (hb : b.mark = .clean) :
    { (kvStateSet (l.conc cfg) (i * blkSize) BlkState.used).setState i BlkState.used with
      cleanBlkNums := l.cleans - 1 } = (l.put i ⟨.used, b.entries⟩).conc cfg := by
  have hcleans := cleans_put h ⟨.used, b.entries⟩
  rw [hb, if_pos rfl, if_neg (show ¬ Mark.used = Mark.clean by decide)] at hcleans
  have hmark := mark_conc cfg .used hi h (by rw [hb]; decide) (by decide) (by rw [hb]; decide)
  have hcount : l.cleans - 1 = (l.put i { b with mark := .used }).cleans := by
    omega
  rw [show BlkState.used = Mark.used.byte from rfl, hmark, hcount]
  rfl

theorem append_eq (h : l.blocks[l.cur]? = some b) : l.append l.cur e = l.put l.cur ⟨b.mark, b.entries ++ [e]⟩ := by
  rw [append, blk_eq h]
  rfl

theorem fill_append (b : Blk) (e : Entry) : (⟨b.mark, b.entries ++ [e]⟩ : Blk).fill cfg = b.fill cfg + e.size cfg := by
  simp [Blk.fill, Nat.add_assoc]

/-- An item written at the write position, as `kv_item_store` and the collection do it. -/
theorem append_conc (hi : l.cur < 15) (h : l.blocks[l.cur]? = some b) (hb : b.mark ≠ .blank)
    (hroom : b.fill cfg + e.size cfg < blkSize) :
    let s := { rawWrite (l.conc cfg) (l.conc cfg).writePos (e.string cfg) with
      writePos := u16 ((l.conc cfg).writePos + e.size cfg) }
    s.setSpace (s.writePos / blkSize) ((s.info (s.writePos / blkSize)).space - e.size cfg) =
      (l.append l.cur e).conc cfg := by
  intro s
  have hpos : (l.conc cfg).writePos = l.cur * blkSize + b.fill cfg := by rw [conc, blk_eq h]
  have hwrite : s.writePos = l.cur * blkSize + (b.fill cfg + e.size cfg) := by
    show u16 ((l.conc cfg).writePos + e.size cfg) = _
    rw [hpos, u16_of_lt, Nat.add_assoc]
    simp only [blkSize] at hroom ⊢
    omega
  have hindex : s.writePos / blkSize = l.cur := by
    rw [hwrite, Nat.mul_comm, Nat.mul_add_div blkSize_pos, Nat.div_eq_of_lt hroom, Nat.add_zero]
  have hprogram : program (flashOf cfg l.blocks) (l.conc cfg).writePos (e.string cfg) =
      flashOf cfg (l.blocks.set l.cur ⟨b.mark, b.entries ++ [e]⟩) := by
    rw [hpos]
    exact program_entry cfg h hb hroom.le
  have hinfo : s.info l.cur = b.info cfg := conc_info h
  rw [hindex, hinfo, append_eq h]
  ext1
  · exact hprogram
  · rfl
  · exact (Nat.add_right_cancel (cleans_put h ⟨b.mark, b.entries ++ [e]⟩)).symm
  · show s.writePos = l.cur * blkSize + ((l.put l.cur _).blk l.cur).fill cfg
    rw [blk_eq (put_blocks h), fill_append, hwrite]
  · show (l.conc cfg).blockInfo.modify l.cur _ = (l.blocks.set l.cur _).map (Blk.info cfg)
    rw [modify_eq_set (conc_blockInfo h), map_set]
    congr 1
    show (⟨blkSize - b.fill cfg - e.size cfg, b.mark.byte⟩ : BlockInfo) = ⟨blkSize - Blk.fill cfg _, b.mark.byte⟩
    rw [fill_append, Nat.sub_add_eq]
  · exact conc_images hprogram
  · rfl

/-- `kv_item_del` of an entry. -/
theorem kill_conc (hi : i < 15) (h : l.blocks[i]? = some b) (hb : b.Sound cfg)
    (hsplit : b.entries = before ++ e :: after) :
    kvItemMark (l.conc cfg) (posOf cfg i before) = (l.kill i before e after).conc cfg := by
  have hprogram : program (flashOf cfg l.blocks) (u16 (posOf cfg i before) + 1) [ItemState.delete] =
      flashOf cfg (l.blocks.set i ⟨b.mark, before ++ e.dead :: after⟩) := by
    rw [u16_of_lt (hb.posOf_lt hsplit hi)]
    exact program_dead h hb.mark hsplit hb.fill
  have hmarked : kvStateSet (l.conc cfg) (posOf cfg i before) ItemState.delete =
      (l.put i ⟨b.mark, before ++ e.dead :: after⟩).conc cfg := rawWrite_conc h hprogram rfl (fill_kill hsplit _)
  have hput : (l.put i ⟨b.mark, before ++ e.dead :: after⟩).blocks[i]? = some ⟨b.mark, before ++ e.dead :: after⟩ :=
    put_blocks h
  rw [kvItemMark, hmarked, hb.posOf_div hsplit, kill, blk_eq h]
  simp only [conc_info hput, Blk.info, Mark.byte_eq_used]
  split
  · next hused => exact dirty_conc hi hput hused
  · rfl

/-- `kv_block_format` of a block that is in use and not written to. -/
theorem format_conc (hi : i < 15) (h : l.blocks[i]? = some b) (hb : b.mark ≠ .clean) (hcur : i ≠ l.cur) :
    kvBlockFormat (l.conc cfg) i = (l.format i).conc cfg := by
  have herase : erase blkSize (flashOf cfg l.blocks) (u16 (i * blkSize) / blkSize) =
      flashOf cfg (l.put i ⟨.blank, []⟩).blocks := by
    rw [u16_block hi, Nat.mul_div_cancel _ blkSize_pos]
    exact erase_block cfg h
  have hheader : program (flashOf cfg (l.put i ⟨.blank, []⟩).blocks) (u16 (i * blkSize))
      [blkMagicNum, BlkState.clean, 0, 0] = flashOf cfg (l.format i).blocks := by
    rw [u16_block hi]
    exact program_header cfg (put_blocks h)
  have hcleans : l.cleans + 1 = (l.format i).cleans := by
    have hblank := cleans_put h ⟨.blank, []⟩
    have hat : (l.put i ⟨.blank, []⟩).blocks[i]? = some ⟨.blank, []⟩ := put_blocks h
    have hclean := cleans_put hat ⟨.clean, []⟩
    rw [if_neg hb, if_neg (show ¬ Mark.blank = Mark.clean by decide)] at hblank
    rw [if_neg (show ¬ Mark.blank = Mark.clean by decide), if_pos rfl] at hclean
    show l.cleans + 1 = ((l.put i ⟨.blank, []⟩).put i ⟨.clean, []⟩).cleans
    omega
  rw [kvBlockFormat]
  simp only [rawErase, rawWrite]
  have hflash : (l.conc cfg).flash = flashOf cfg l.blocks := rfl
  rw [hflash, herase, hheader]
  ext1
  · rfl
  · rfl
  · exact hcleans
  · show l.cur * blkSize + (l.blk l.cur).fill cfg = l.cur * blkSize + ((l.format i).blk l.cur).fill cfg
    rw [format, blk_put_ne hcur, blk_put_ne hcur]
  · show (l.blocks.map (Blk.info cfg)).set i _ = ((l.blocks.set i ⟨.blank, []⟩).set i ⟨.clean, []⟩).map (Blk.info cfg)
    rw [set_set, map_set]
    rfl
  · show l.images.map (flashOf cfg) ++ [_] ++ [_] = (l.format i).images.map (flashOf cfg)
    simp only [format, put, map_append, map_cons, map_nil]
  · rfl

theorem noteSpace_eq {s : State} (hi : i < 15) (hb : b.Sound cfg) :
    noteSpace s i (posOf cfg i b.entries) = s.setSpace i (blkSize - b.fill cfg) := by
  have hpos : posOf cfg i b.entries = i * blkSize + b.fill cfg := by rw [posOf, Blk.fill, Nat.add_assoc]
  have hlt : posOf cfg i b.entries < (i + 1) * blkSize := by
    have := hb.fill
    rw [hpos, Nat.succ_mul]
    omega
  have hspace : (i + 1) * blkSize - posOf cfg i b.entries = blkSize - b.fill cfg := by
    rw [hpos, Nat.succ_mul, Nat.add_sub_add_left]
  rw [noteSpace]
  simp only [endPos_eq hi, if_pos hlt, hspace]

theorem noteSpace_conc (hi : i < 15) (h : l.blocks[i]? = some b) (hb : b.Sound cfg) :
    noteSpace (l.conc cfg) i (posOf cfg i b.entries) = l.conc cfg := by
  rw [noteSpace_eq hi hb, State.setSpace]
  ext1 <;> try rfl
  rw [modify_eq_set (conc_blockInfo h)]
  exact set_eq_self (conc_blockInfo h)

theorem noteDirty_conc (h : l.blocks[i]? = some b) (hb : b.mark ≠ .used) :
    noteDirty (l.conc cfg) i = l.conc cfg := by
  rw [noteDirty, conc_info h, if_neg]
  exact fun hused => hb (Mark.byte_eq_used.mp hused)

/-- A store between two calls, as far as reading it goes: whole blocks, nothing deleted
in a block marked `USED` and nothing at all in one marked `CLEAN`. -/
structure Sound (cfg : Config) (l : Log) : Prop where
  length : l.blocks.length = cfg.blkNums
  small : cfg.blkNums ≤ 15
  block : ∀ b ∈ l.blocks, b.Sound cfg
  tidy : ∀ b ∈ l.blocks, b.mark = .used → ∀ e ∈ b.entries, e.live = true
  fresh : ∀ b ∈ l.blocks, b.mark = .clean → b.entries = []

theorem Sound.congr (h : l.Sound cfg) (hblocks : l'.blocks = l.blocks) : l'.Sound cfg := by
  obtain ⟨hlength, hsmall, hblock, htidy, hfresh⟩ := h
  rw [← hblocks] at hlength hblock htidy hfresh
  exact ⟨hlength, hsmall, hblock, htidy, hfresh⟩

theorem Sound.at (h : l.Sound cfg) (hi : i < cfg.blkNums) :
    l.blocks[i]? = some (l.blk i) ∧ (l.blk i).Sound cfg ∧ i < 15 := by
  have hat := blocks_of_lt (show i < l.blocks.length by rw [h.length]; exact hi)
  exact ⟨hat, h.block _ (mem_of_getElem? hat), Nat.lt_of_lt_of_le hi h.small⟩

theorem Sound.unused (h : l.Sound cfg) (hat : l.blocks[i]? = some b) (hsplit : b.entries = before ++ e :: after)
    (hdead : e.live = false) : b.mark ≠ .used := by
  intro hused
  have hlive := h.tidy b (mem_of_getElem? hat) hused e (by rw [hsplit]; simp)
  rw [hdead] at hlive
  cases hlive

section Visits
variable {mem : Mem} {func : Item → State → State × Verdict}

theorem end_visits (hi : i < 15) (h : l.blocks[i]? = some b) (hb : b.Sound cfg) :
    Visits cfg mem func i (posOf cfg i b.entries) (l.conc cfg) (l.conc cfg, none) := by
  by_cases hfail : posOf cfg i b.entries + itemHeaderSize < (i + 1) * blkSize ∧
      mem (.item (posOf cfg i b.entries)) = false
  · exact Visits.noMem hfail.1 hfail.2
  · have hend : Visits cfg mem func i (posOf cfg i b.entries) (l.conc cfg)
        (noteSpace (l.conc cfg) i (posOf cfg i b.entries), none) :=
      Visits.end rfl h hb fun hroom => Bool.of_not_eq_false fun hm => hfail ⟨hroom, hm⟩
    rwa [noteSpace_conc hi h hb] at hend

theorem dead_visits {r : State × Option Item} (hl : l.Sound cfg) (hi : i < cfg.blkNums)
    (hsplit : (l.blk i).entries = before ++ e :: after) (hmem : mem (.item (posOf cfg i before)) = true)
    (hdead : e.live = false) (hrest : Visits cfg mem func i (posOf cfg i (before ++ [e])) (l.conc cfg) r) :
    Visits cfg mem func i (posOf cfg i before) (l.conc cfg) r := by
  obtain ⟨hat, hb, hi15⟩ := hl.at hi
  refine Visits.dead hi15 rfl hat hb hsplit hmem hdead ?_
  rwa [noteDirty_conc hat (hl.unused hat hsplit hdead)]

end Visits

/-- A store between two calls: the block written to is in use. -/
structure Running (cfg : Config) (l : Log) : Prop extends l.Sound cfg where
  inside : l.cur < cfg.blkNums
  writing : (l.blk l.cur).mark ≠ .clean

/-! ### Searching -/

theorem itemFindCb_entry (mem : Mem) (key : Bytes) (h : l.blocks[i]? = some b) (hb : b.Sound cfg)
    (hsplit : b.entries = before ++ e :: after) (hlive : e.live = true) :
    ∃ v, itemFindCb mem key ⟨e.hdr, posOf cfg i before, e.key.length + e.value.length, []⟩ (l.conc cfg) =
        (l.conc cfg, v) ∧
      (v = .failed ∧ mem (.buffer (posOf cfg i before)) = false ∨
        v = if holdsKey key e then .found (itemOf cfg i before e) else .cont) := by
  have hread : read (l.conc cfg).flash (posOf cfg i before + itemHeaderSize) (e.key.length + e.value.length) =
      e.key ++ e.value := read_content h hb.mark hsplit hb.fill
  by_cases hlen : e.key.length = key.length
  · cases hmem : mem (.buffer (posOf cfg i before)) with
    | false => exact ⟨.failed, by simp [itemFindCb, Entry.hdr, hlen, hmem], .inl ⟨rfl, rfl⟩⟩
    | true =>
      simp only [itemFindCb, Entry.hdr, hlen, hmem, holdsKey, hlive]
      rw [← hlen, hread, take_left]
      by_cases hkey : e.key = key
      · simp [hkey, itemOf, Entry.hdr, hlive]
      · simp [hkey]
  · have hkey : e.key ≠ key := fun heq => hlen (congrArg List.length heq)
    exact ⟨.cont, by simp [itemFindCb, Entry.hdr, hlen], .inr (by simp [holdsKey, hkey])⟩

/-- What a search in some entries of block `i` finds. -/
def foundIn (cfg : Config) (key : Bytes) (i : Nat) (before after : List Entry) : Option Item :=
  (splitFirst (holdsKey key) after).map fun x => itemOf cfg i (before ++ x.1) x.2.1

theorem foundIn_cons_of_neg {key : Bytes} {rest : List Entry} (he : holdsKey key e = false) :
    foundIn cfg key i before (e :: rest) = foundIn cfg key i (before ++ [e]) rest := by
  rw [foundIn, foundIn, splitFirst, if_neg (by rw [he]; exact Bool.false_ne_true), Option.map_map]
  congr 1
  funext x
  simp

/-- The search in one block: it finds what is there, or an allocation fails. -/
theorem find_visits (mem : Mem) (key : Bytes) (hl : l.Sound cfg) (hi : i < cfg.blkNums)
    (hsplit : (l.blk i).entries = before ++ after) :
    ∃ r, Visits cfg mem (itemFindCb mem key) i (posOf cfg i before) (l.conc cfg) (l.conc cfg, r) ∧
      (r = none ∧ ¬ Full mem ∨ r = foundIn cfg key i before after) := by
  obtain ⟨hat, hb, hi15⟩ := hl.at hi
  induction after generalizing before with
  | nil =>
    rw [append_nil] at hsplit
    subst hsplit
    exact ⟨none, end_visits hi15 hat hb, .inr rfl⟩
  | cons e rest ih =>
    have hmore : (l.blk i).entries = (before ++ [e]) ++ rest := by rw [hsplit, append_assoc]; rfl
    obtain ⟨r, hrest, hr⟩ := ih hmore
    cases hmem : mem (.item (posOf cfg i before)) with
    | false => exact ⟨none, Visits.noMem (entry_room hb hsplit) hmem, .inl ⟨rfl, fun hfull => by simp [(hfull _).1] at hmem⟩⟩
    | true =>
      cases hlive : e.live with
      | false =>
        refine ⟨r, dead_visits hl hi hsplit hmem hlive hrest, ?_⟩
        rwa [foundIn_cons_of_neg (by simp [holdsKey, hlive])]
      | true =>
        obtain ⟨v, hfunc, hv⟩ := itemFindCb_entry mem key hat hb hsplit hlive
        rcases hv with ⟨rfl, hbuffer⟩ | rfl
        · exact ⟨none, Visits.failed hi15 rfl hat hb hsplit hmem hlive hfunc,
            .inl ⟨rfl, fun hfull => by simp [(hfull _).2] at hbuffer⟩⟩
        · cases hkey : holdsKey key e with
          | true =>
            rw [hkey, if_pos rfl] at hfunc
            refine ⟨_, Visits.found hi15 rfl hat hb hsplit hmem hlive hfunc, .inr ?_⟩
            simp [foundIn, splitFirst, hkey]
          | false =>
            rw [hkey, if_neg Bool.false_ne_true] at hfunc
            refine ⟨r, Visits.cont hi15 rfl hat hb hsplit hmem hlive hfunc hrest, ?_⟩
            rwa [foundIn_cons_of_neg hkey]

def itemAt (cfg : Config) (x : Nat × List Entry × Entry × List Entry) : Item := itemOf cfg x.1 x.2.1 x.2.2.1

def Genuine (l : Log) (key : Bytes) (r : Option (Nat × List Entry × Entry × List Entry)) : Prop :=
  ∀ i before e after, r = some (i, before, e, after) → l.At i before e after ∧ holdsKey key e = true

/-- The search through some blocks. Whatever it returns is there; without failing
allocations it is the first of its kind. -/
theorem getLoop_conc (mem : Mem) (key : Bytes) (hl : l.Sound cfg) (is : List Nat) (his : ∀ i ∈ is, i < cfg.blkNums) :
    ∃ r, l.Genuine key r ∧ (Full mem → r = findLoop l key is) ∧
      getLoop cfg mem key is (l.conc cfg) = (l.conc cfg, r.map (itemAt cfg)) := by
  induction is with
  | nil => exact ⟨none, by simp [Genuine], fun _ => rfl, rfl⟩
  | cons i rest ih =>
    obtain ⟨r, hgenuine, hfull, hget⟩ := ih fun j hj => his j (mem_cons_of_mem i hj)
    have hi := his i mem_cons_self
    obtain ⟨hat, hb, hi15⟩ := hl.at hi
    by_cases hclean : (l.blk i).mark = .clean
    · have hstate : ¬ ((l.conc cfg).info i).state ≠ BlkState.clean := by
        rw [conc_info hat, Blk.info, hclean]
        exact fun h => h rfl
      refine ⟨r, hgenuine, fun hmem => ?_, by rw [getLoop, if_neg hstate, hget]⟩
      rw [findLoop, if_pos hclean, hfull hmem]
    · have hstate : ((l.conc cfg).info i).state ≠ BlkState.clean := by
        rw [conc_info hat, Blk.info]
        exact fun h => hclean (Mark.byte_eq_clean.mp h)
      have hwhole : (l.blk i).entries = [] ++ (l.blk i).entries := rfl
      obtain ⟨r', hvisits, hr'⟩ := find_visits mem key hl hi hwhole
      have htraverse := kvItemTraverse_eq hi15 hvisits
      cases r' with
      | none =>
        refine ⟨r, hgenuine, fun hmem => ?_, ?_⟩
        · rcases hr' with ⟨-, hfail⟩ | hr'
          · exact absurd hmem hfail
          · have hnone : splitFirst (holdsKey key) (l.blk i).entries = none := Option.map_eq_none_iff.mp hr'.symm
            rw [findLoop, if_neg hclean, hnone]
            exact hfull hmem
        · rw [getLoop, if_pos hstate, htraverse]
          exact hget
      | some item =>
        rcases hr' with ⟨hno, -⟩ | hr'
        · cases hno
        · obtain ⟨⟨before, e, after⟩, hsplit, hitem⟩ := Option.map_eq_some_iff.mp hr'.symm
          obtain ⟨hentries, hkey⟩ := splitFirst_some hsplit
          refine ⟨some (i, before, e, after), fun _ _ _ _ hx => ?_, fun _ => ?_, ?_⟩
          · cases hx
            exact ⟨⟨by rw [hl.length]; exact hi, hentries⟩, hkey⟩
          · rw [findLoop, if_neg hclean, hsplit]
          · rw [getLoop, if_pos hstate, htraverse, ← hitem]
            rfl

theorem kvItemGet_conc (mem : Mem) (key : Bytes) (hl : l.Sound cfg) :
    ∃ r, l.Genuine key r ∧ (Full mem → r = l.find cfg key) ∧
      kvItemGet cfg mem key (l.conc cfg) = (l.conc cfg, r.map (itemAt cfg)) :=
  getLoop_conc mem key hl _ fun _ hi => mem_range.mp hi

/-! ### Storing -/

/-- A block the loop of `kv_item_calc_pos` stops at has room. -/
theorem searchLoop_found {s : State} {n blkIndex rounds : Nat} (hj : j ≤ n) (hn : 0 < n)
    (h : searchLoop n s blkIndex len rounds j = some (some i)) : i < n ∧ len < (s.info i).space := by
  induction rounds generalizing j with
  | zero => cases h
  | succ rounds ih =>
    obtain ⟨k, hk⟩ : ∃ k, k = if j = n then 0 else j := ⟨_, rfl⟩
    have hlt : k < n := by
      rw [hk]
      split <;> omega
    simp only [searchLoop, ← hk] at h
    split at h
    · cases h
    · split at h
      · next hroom =>
        cases h
        exact ⟨hlt, hroom⟩
      · exact ih (by omega) h

theorem writePos_div (h : l.blocks[l.cur]? = some b) (hb : b.fill cfg < blkSize) :
    (l.conc cfg).writePos / blkSize = l.cur := by
  rw [conc, blk_eq h, Nat.mul_comm, Nat.mul_add_div blkSize_pos, Nat.div_eq_of_lt hb, Nat.add_zero]

theorem space_eq (h : l.blocks[i]? = some b) : l.space cfg i = blkSize - b.fill cfg := by
  rw [space, conc_info h]
  rfl

/-- Everything `place` can do: find no room, go on in a block in use, or open a clean one. -/
theorem place_cases {o : Option Nat} (hl : l.Running cfg) (h : l.place cfg len = some (l', o)) :
    (o = none ∧ l' = { l with gc := true }) ∨
    (∃ i b, o = some i ∧ i < cfg.blkNums ∧ l.blocks[i]? = some b ∧ b.fill cfg + len < blkSize ∧
      (b.mark ≠ .clean ∧ (∃ gc, l' = { l with cur := i, gc := gc }) ∨
        b = ⟨.clean, []⟩ ∧ cfg.blkNums > kvGcReserved + 1 ∧ l' = { l.put i ⟨.used, []⟩ with cur := i })) := by
  obtain ⟨hat, hb, -⟩ := hl.at hl.inside
  rw [place, space_eq hat] at h
  split at h
  · next hroom =>
    cases h
    refine .inr ⟨l.cur, _, rfl, hl.inside, hat, by omega, .inl ⟨hl.writing, ?_⟩⟩
    split
    · exact ⟨true, rfl⟩
    · exact ⟨l.gc, rfl⟩
  · split at h
    · next hmany =>
      split at h
      · cases h
      · cases h
        exact .inl ⟨rfl, rfl⟩
      · next i hsearch =>
        have hinside := hl.inside
        obtain ⟨hi, hroom⟩ := searchLoop_found (by omega) (by omega) hsearch
        obtain ⟨hati, hbi, -⟩ := hl.at hi
        have hroom : len < blkSize - (l.blk i).fill cfg := by rwa [conc_info hati] at hroom
        split at h
        · next hclean =>
          cases h
          have hempty := hl.fresh _ (mem_of_getElem? hati) hclean
          have hblk : l.blk i = ⟨.clean, []⟩ := by
            rw [← hclean, ← hempty]
          refine .inr ⟨i, _, rfl, hi, hati, by omega, .inr ⟨hblk, hmany, ?_⟩⟩
          rw [hempty]
        · next hclean =>
          cases h
          exact .inr ⟨i, _, rfl, hi, hati, by omega, .inl ⟨hclean, l.gc, rfl⟩⟩
    · cases h
      exact .inl ⟨rfl, rfl⟩

/-- `kv_item_calc_pos`. -/
theorem kvItemCalcPos_conc (hl : l.Running cfg) (len : Nat) :
    kvItemCalcPos cfg (l.conc cfg) len =
      (l.place cfg len).map fun r => (r.1.conc cfg, match r.2 with | some _ => (r.1.conc cfg).writePos | none => 0) := by
  have hcur := hl.inside
  obtain ⟨hat, hb, -⟩ := hl.at hcur
  rw [kvItemCalcPos]
  simp only [writePos_div hat hb.fill]
  rw [place]
  by_cases hroom : len < l.space cfg l.cur
  · have hroom' : len < ((l.conc cfg).info l.cur).space := hroom
    rw [if_pos hroom, if_pos hroom']
    by_cases hdue : l.space cfg l.cur - len < itemMaxLen ∧ l.cleans ≤ kvGcReserved
    · have hdue' : ((l.conc cfg).info l.cur).space - len < itemMaxLen ∧ (l.conc cfg).cleanBlkNums ≤ kvGcReserved := hdue
      rw [if_pos hdue, if_pos hdue']
      rfl
    · have hdue' : ¬ (((l.conc cfg).info l.cur).space - len < itemMaxLen ∧ (l.conc cfg).cleanBlkNums ≤ kvGcReserved) :=
        hdue
      rw [if_neg hdue, if_neg hdue']
      rfl
  · have hroom' : ¬ len < ((l.conc cfg).info l.cur).space := hroom
    rw [if_neg hroom, if_neg hroom']
    split
    · next hmany =>
      cases hsearch : searchLoop cfg.blkNums (l.conc cfg) l.cur len (cfg.blkNums + 1) (l.cur + 1) with
      | none => rfl
      | some o =>
        cases o with
        | none => rfl
        | some i =>
          obtain ⟨hi, -⟩ := searchLoop_found (by omega) (by omega) hsearch
          obtain ⟨hati, hbi, hi15⟩ := hl.at hi
          have hfill := hbi.fill
          have hpos : u16 (i * blkSize + blkSize - ((l.conc cfg).info i).space) = i * blkSize + (l.blk i).fill cfg := by
            rw [conc_info hati, u16_of_lt] <;> simp only [Blk.info, blkSize] at hfill ⊢ <;> omega
          have hmoved : { l.conc cfg with writePos := i * blkSize + (l.blk i).fill cfg } =
              ({ l with cur := i } : Log).conc cfg := rfl
          have hinfo : (({ l with cur := i } : Log).conc cfg).info i = (l.blk i).info cfg := conc_info hati
          simp only [hpos, hmoved, hinfo, Blk.info, Mark.byte_eq_clean]
          by_cases hclean : (l.blk i).mark = .clean
          · have hused := used_conc cfg (l := { l with cur := i }) hi15 hati hclean
            rw [if_pos hclean, if_pos hclean, Option.map_some]
            have hwrite := congrArg State.writePos hused
            exact congrArg some (Prod.ext hused hwrite)
          · rw [if_neg hclean, if_neg hclean]
            rfl
    · rfl

/-- A block changed for a sound one. -/
theorem Sound.put (hl : l.Sound cfg) (b' : Blk) (hb : b'.Sound cfg)
    (htidy : b'.mark = .used → ∀ e ∈ b'.entries, e.live = true) (hfresh : b'.mark = .clean → b'.entries = []) :
    (l.put i b').Sound cfg := by
  have hmem (b : Blk) (hb : b ∈ (l.put i b').blocks) : b ∈ l.blocks ∨ b = b' := mem_or_eq_of_mem_set hb
  refine ⟨by rw [Log.put, length_set, hl.length], hl.small, fun b hb => ?_, fun b hb => ?_, fun b hb => ?_⟩
  · rcases hmem b hb with h | rfl
    · exact hl.block b h
    · assumption
  · rcases hmem b hb with h | rfl
    · exact hl.tidy b h
    · exact htidy
  · rcases hmem b hb with h | rfl
    · exact hl.fresh b h
    · exact hfresh

/-- Placing keeps the store going. -/
theorem Running.place {o : Option Nat} (hl : l.Running cfg) (h : l.place cfg len = some (l', o)) : l'.Running cfg := by
  rcases place_cases hl h with ⟨-, rfl⟩ | ⟨i, b, rfl, hi, hat, hroom, hhow⟩
  · exact ⟨hl.toSound.congr rfl, hl.inside, hl.writing⟩
  · rcases hhow with ⟨hclean, gc, rfl⟩ | ⟨rfl, -, rfl⟩
    · refine ⟨hl.toSound.congr rfl, hi, ?_⟩
      show (l.blk i).mark ≠ .clean
      rwa [blk_eq hat]
    · have hb := hl.block _ (mem_of_getElem? hat)
      have hused : (⟨.used, []⟩ : Blk).Sound cfg := ⟨show Mark.used ≠ Mark.blank by decide, hb.fill, hb.valid⟩
      refine ⟨(hl.put ⟨.used, []⟩ hused (fun _ => by simp) (fun h => by cases h)).congr rfl, hi, ?_⟩
      show ((l.put i ⟨.used, []⟩).blk i).mark ≠ .clean
      rw [blk_eq (put_blocks hat)]
      decide

theorem placed (hl : l.Running cfg) (h : l.place cfg len = some (l', some i)) :
    l'.Running cfg ∧ l'.cur = i ∧ ∃ b, l'.blocks[i]? = some b ∧ b.fill cfg + len < blkSize := by
  refine ⟨hl.place h, ?_⟩
  rcases place_cases hl h with ⟨hnone, -⟩ | ⟨j, b, hj, hlt, hat, hroom, hhow⟩
  · cases hnone
  · cases hj
    rcases hhow with ⟨-, gc, rfl⟩ | ⟨rfl, -, rfl⟩
    · exact ⟨rfl, b, hat, hroom⟩
    · exact ⟨rfl, ⟨.used, []⟩, put_blocks hat, hroom⟩

/-- `kv_item_store`, with its buffer granted. -/
theorem kvItemStore_conc {mem : Mem} (hmem : mem .store = true) (hl : l.Running cfg)
    (key val : Bytes) (origin : Nat) :
    kvItemStore cfg mem key val origin (l.conc cfg) =
      (l.store cfg ⟨true, key, val, origin⟩).map fun r => (r.1.conc cfg, r.2) := by
  rw [kvItemStore, store]
  simp only [hmem, Bool.not_true, Bool.false_eq_true, if_false]
  have hsize : (⟨true, key, val, origin⟩ : Entry).size cfg = itemLen cfg key.length val.length := rfl
  rw [hsize, kvItemCalcPos_conc hl]
  cases hplace : l.place cfg (itemLen cfg key.length val.length) with
  | none => rfl
  | some r =>
    obtain ⟨l', o⟩ := r
    cases o with
    | none => rfl
    | some i =>
      obtain ⟨hrun, rfl, b, hat, hroom⟩ := placed hl hplace
      have hi15 := (hrun.at hrun.inside).2.2
      have hblank := (hrun.block b (mem_of_getElem? hat)).mark
      have hpos : (l'.conc cfg).writePos > 0 := by
        rw [conc, blk_eq hat]
        simp only [Blk.fill, blkHeaderSize]
        omega
      have happend := append_conc (e := ⟨true, key, val, origin⟩) hi15 hat hblank hroom
      simp only [Option.map_some]
      rw [if_pos hpos]
      exact congrArg (fun s => some (s, Res.ok)) happend

/-- So does appending a live entry where there is room. -/
theorem Running.append (hl : l.Running cfg) (h : l.blocks[l.cur]? = some b) (he : e.Valid) (hlive : e.live = true)
    (hroom : b.fill cfg + e.size cfg < blkSize) : (l.append l.cur e).Running cfg := by
  have hmem := mem_of_getElem? h
  have hb := hl.block b hmem
  have hclean := hl.writing
  rw [blk_eq h] at hclean
  rw [append_eq h]
  refine ⟨hl.put ⟨b.mark, b.entries ++ [e]⟩ ⟨hb.mark, by rw [fill_append]; exact hroom, Run.forall_snoc hb.valid he⟩
    (fun hused => Run.forall_snoc (hl.tidy b hmem hused) hlive) (fun hm => absurd hm hclean), hl.inside, ?_⟩
  show ((l.put l.cur ⟨b.mark, b.entries ++ [e]⟩).blk l.cur).mark ≠ .clean
  rwa [blk_eq (put_blocks h)]

section
variable (h : l.At i before e after)
include h

theorem At.mem : l.blk i ∈ l.blocks :=
  mem_of_getElem? (blocks_of_lt h.block)

theorem At.lt (hl : l.Sound cfg) : i < cfg.blkNums := by
  rw [← hl.length]
  exact h.block

theorem At.facts (hl : l.Sound cfg) :
    l.blocks[i]? = some (l.blk i) ∧ (l.blk i).Sound cfg ∧ i < 15 := hl.at (h.lt hl)
end

theorem kill_blocks :
    (l.kill i before e after).blocks =
      l.blocks.set i ⟨(l.blk i).mark.soil, before ++ e.dead :: after⟩ := by
  rw [kill, Mark.soil]
  split <;> simp [put]

theorem At.ne_clean (h : l.At i before e after) (hl : l.Sound cfg) : (l.blk i).mark ≠ .clean := by
  intro hclean
  have hempty := hl.fresh _ h.mem hclean
  rw [h.split] at hempty
  simp at hempty

theorem kill_cur : (l.kill i before e after).cur = l.cur := by
  rw [kill]
  split <;> rfl

theorem Sound.kill (hl : l.Sound cfg) (h : l.At i before e after) : (l.kill i before e after).Sound cfg := by
  have hb := hl.block _ h.mem
  have hdead := hb.dead h.split (m := (l.blk i).mark.soil) fun hm => hb.mark (Mark.soil_eq_blank.mp hm)
  refine (hl.put (i := i) _ hdead (fun hused => ?_) (fun hclean => ?_)).congr kill_blocks
  · exact absurd hused (Mark.soil_ne_used _)
  · exact absurd (Mark.soil_eq_clean.mp hclean) (h.ne_clean hl)

theorem kill_blk (h : i < l.blocks.length) :
    (l.kill i before e after).blk i = ⟨(l.blk i).mark.soil, before ++ e.dead :: after⟩ := by
  rw [blk, kill_blocks]
  exact blk_put_self h _

theorem kill_blk_ne (hne : i ≠ j) : (l.kill i before e after).blk j = l.blk j := by
  rw [blk, kill_blocks]
  exact blk_put_ne hne _

theorem Running.kill (hl : l.Running cfg) (h : l.At i before e after) : (l.kill i before e after).Running cfg := by
  refine ⟨hl.toSound.kill h, by rw [kill_cur]; exact hl.inside, ?_⟩
  rw [kill_cur]
  by_cases hi : i = l.cur
  · subst hi
    rw [kill_blk h.block]
    exact fun hclean => hl.writing (Mark.soil_eq_clean.mp hclean)
  · rw [kill_blk_ne hi]
    exact hl.writing

end Log

end Qumios.Kv
