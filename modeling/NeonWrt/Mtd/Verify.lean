import NeonWrt.Mtd.Stored

/-!
# Verifying what was written

`mtd verify` compares the MD5 sum of a file with that of as many bytes of the device, read
from its beginning. `mtd_write` leaves out bad blocks, and `mtd_verify` reads through them.
So it finds the image again if no bad block lies where it reads. Behind a bad block it takes
the bytes of the bad block and of the blocks that the image was shifted to.

The MD5 functions are those of a library and a parameter here.
-/

namespace NeonWrt.Mtd

open Lib

/-- The functions `md5_begin`, `md5_hash` and `md5_end`. Hashing in pieces is hashing the whole. -/
structure Md5 where
  Ctx : Type
  start : Ctx
  hash : Ctx → Bytes → Ctx
  finish : Ctx → Bytes
  hash_nil : ∀ c, hash c [] = c
  hash_append : ∀ c a b, hash c (a ++ b) = hash (hash c a) b
  length_finish : ∀ c, (finish c).length = 16

/-- `md5sum` of a file. -/
def Md5.md5sum (m : Md5) (dat : Bytes) : Bytes := m.finish (m.hash m.start dat)

/-- The sum of the data is not by chance the sum of the image. -/
def Md5.NoCollision (m : Md5) (image dat : Bytes) : Prop := m.md5sum dat = m.md5sum image → dat = image

/-- `memcmp` of two buffers of one length. -/
def memcmp : Bytes → Bytes → ℤ
  | a :: as, b :: bs => if a = b then memcmp as bs else a.toNat - b.toNat
  | _, _ => 0

theorem memcmp_eq_zero {a b : Bytes} (h : a.length = b.length) : memcmp a b = 0 ↔ a = b := by
  induction a generalizing b with
  | nil =>
    obtain rfl : b = [] := List.length_eq_zero_iff.mp h.symm
    exact iff_of_true rfl rfl
  | cons x a ih =>
    cases b with
    | nil => exact absurd h (by simp)
    | cons y b =>
      rw [memcmp]
      split_ifs with hxy
      · rw [ih (by simpa using h), hxy, List.cons.injEq, and_iff_right rfl]
      · refine iff_of_false (fun hz => hxy ?_) fun heq => hxy (List.cons.inj heq).1
        exact UInt8.toNat_inj.mp (by omega)

/-- What a `read` of the device can do: deliver up to so many bytes and one, be interrupted, or
fail. -/
inductive DevRead where
  | upTo (n : ℕ)
  | again
  | failed
  deriving DecidableEq

/-- The bytes of a device from a position on. -/
def span (mem : ℕ → UInt8) (pos len : ℕ) : Bytes := (List.range len).map fun i => mem (pos + i)

/-- The bytes that a read delivers of those that are there. -/
def served : Option DevRead → ℕ → ℕ
  | some (.upTo k), avail => min (k + 1) avail
  | _, avail => avail

/-- The loop of `mtd_verify`, with the bytes that are left to read: the context at the end, or
`some none` where a read failed. Reads behind the end of the list deliver what they are asked
for. -/
def verifyLoop (m : Md5) (d : Device) (mem : ℕ → UInt8) :
    ℕ → List DevRead → ℕ → ℕ → m.Ctx → Option (Option m.Ctx)
  | 0, _, _, _, _ => none
  | n + 1, reads, pos, size, ctx =>
    let len := if 256 < size then 256 else size
    let rlen := served reads.head? (min len (d.size - pos))
    if reads.head? = some .failed then some none
    else if reads.head? = some .again then
      -- `continue` goes on to the condition of the loop
      if 0 < size then verifyLoop m d mem n reads.tail pos size ctx else some (some ctx)
    else if rlen = 0 then some (some ctx)
    else
      let ctx := m.hash ctx (span mem pos rlen)
      if 0 < size - rlen then verifyLoop m d mem n reads.tail (pos + rlen) (size - rlen) ctx
      else some (some ctx)

/-- `mtd_verify`. The file and the device are `none` where they cannot be opened. -/
def mtdVerify (m : Md5) (file : Option Bytes) (dev : Option (Device × (ℕ → UInt8)))
    (reads : List DevRead) : Option ℤ :=
  match file, dev with
  | none, _ => some (-1)
  | some _, none => some (-1)
  | some image, some (d, mem) =>
    (verifyLoop m d mem (reads.length + image.length + 1) reads 0 image.length m.start).map fun
      | none => -1
      | some ctx => memcmp (m.md5sum image) (m.finish ctx)

section Verifying

variable {m : Md5} {d : Device} {mem : ℕ → UInt8}

theorem served_le (r : Option DevRead) (avail : ℕ) : served r avail ≤ avail := by
  cases r with
  | none => exact le_rfl
  | some r => cases r <;> simp [served]

theorem served_eq_zero {r : Option DevRead} {avail : ℕ} : served r avail = 0 ↔ avail = 0 := by
  cases r with
  | none => rfl
  | some r =>
    cases r with
    | upTo k => simp only [served]; omega
    | again => rfl
    | failed => rfl

@[simp] theorem length_span {pos len : ℕ} : (span mem pos len).length = len := by simp [span]

theorem span_add (pos a b : ℕ) : span mem pos (a + b) = span mem pos a ++ span mem (pos + a) b := by
  simp only [span, List.range_add, List.map_append, List.map_map]
  congr 1
  exact List.map_congr_left fun i _ => by simp [Nat.add_assoc]

/-- However the reads deliver it, the loop hashes what is there. -/
theorem verifyLoop_eq {n : ℕ} {reads : List DevRead} {pos size : ℕ} {ctx : m.Ctx}
    (hn : reads.length + size < n) (hreads : DevRead.failed ∉ reads) :
    verifyLoop m d mem n reads pos size ctx =
      some (some (m.hash ctx (span mem pos (min size (d.size - pos))))) := by
  induction n generalizing reads pos size ctx with
  | zero => omega
  | succ n ih =>
    have hlen : (if 256 < size then 256 else size) = min 256 size := by split_ifs <;> omega
    have hfailed : reads.head? ≠ some .failed := fun h => hreads (List.mem_of_mem_head? h)
    have htail : DevRead.failed ∉ reads.tail := fun h => hreads (List.mem_of_mem_tail h)
    have hle := served_le reads.head? (min (min 256 size) (d.size - pos))
    have hzero := @served_eq_zero reads.head? (min (min 256 size) (d.size - pos))
    have hshort : reads.tail.length ≤ reads.length := by simp
    rw [verifyLoop, hlen, if_neg hfailed]
    dsimp only
    generalize served reads.head? (min (min 256 size) (d.size - pos)) = rlen at hle hzero
    split_ifs with hagain hpos hz hmore
    · -- an interrupted read is one read less to come
      have hcons : reads.tail.length < reads.length := by
        have hne : reads ≠ [] := by
          rintro rfl
          exact absurd hagain (by simp)
        have := List.length_pos_iff.mpr hne
        rw [List.length_tail]
        omega
      exact ih (by omega) htail
    · obtain rfl : size = 0 := by omega
      rw [Nat.zero_min, span, List.range_zero, List.map_nil, m.hash_nil]
    · rw [show min size (d.size - pos) = 0 by omega, span, List.range_zero, List.map_nil, m.hash_nil]
    · rw [ih (by omega) htail, ← m.hash_append, ← span_add]
      congr 4
      omega
    · congr 4
      omega

/-- The bytes that are compared with an image. -/
def rawPrefix (d : Device) (mem : ℕ → UInt8) (image : Bytes) : Bytes :=
  span mem 0 (min image.length d.size)

/-- `mtd_verify` returns 0 if the sums agree. -/
theorem mtdVerify_eq_zero {image : Bytes} {reads : List DevRead}
    (hreads : DevRead.failed ∉ reads) :
    mtdVerify m (some image) (some (d, mem)) reads = some 0 ↔
      m.md5sum (rawPrefix d mem image) = m.md5sum image := by
  rw [mtdVerify, verifyLoop_eq (by omega) hreads, Nat.sub_zero, Option.map_some, Option.some.injEq]
  have hlength : (m.md5sum image).length = (m.md5sum (rawPrefix d mem image)).length := by
    rw [Md5.md5sum, Md5.md5sum, m.length_finish, m.length_finish]
  exact (memcmp_eq_zero hlength).trans eq_comm

theorem rawPrefix_eq_iff {image : Bytes} : rawPrefix d mem image = image ↔
    ∀ i < image.length, i < d.size ∧ mem i = image.getD i 0xff := by
  constructor
  · intro h i hi
    have hlen := congrArg List.length h
    rw [rawPrefix, length_span] at hlen
    refine ⟨by omega, ?_⟩
    have hget : (rawPrefix d mem image).getD i 0xff = image.getD i 0xff := by rw [h]
    rw [← hget, rawPrefix, span, List.getD_eq_getElem?_getD]
    simp [show i < min image.length d.size by omega]
  · intro h
    have hlen : min image.length d.size = image.length := by
      by_contra hne
      have := (h d.size (by omega)).1
      omega
    apply List.ext_getElem
    · rw [rawPrefix, length_span, hlen]
    · intro i hi hi'
      have := (h i hi').2
      simp [rawPrefix, span, this, hi']

end Verifying

/-- A byte of the first part of the device after an image was written: without erasing the image
is on top of what was there, and else the good blocks hold the image and the bad ones what they
held. -/
def rawByte (noErase : Bool) (d : Device) (image : Bytes) (mem : ℕ → UInt8) (i : ℕ) : UInt8 :=
  if noErase then mem i &&& image.getD i 0xff
  else if d.bad (i / d.eraseSize) then mem i
  else image.getD (d.goodBefore 0 (i / d.eraseSize) * d.eraseSize + i % d.eraseSize) 0xff

section Writing

variable {call : Call} {d : Device} {s : State} {flash : Flash} {sizes : ℕ → ℕ}

theorem goodBefore_left {b b' : ℕ} (h : b < b') :
    d.goodBefore b b' = (if d.bad b = false then 1 else 0) + d.goodBefore (b + 1) b' := by
  induction b', h using Nat.le_induction with
  | base => rw [goodBefore_succ le_rfl, goodBefore_first, goodBefore_first, Nat.add_comm]
  | succ b' hle ih => rw [goodBefore_succ (by omega), goodBefore_succ hle, ih, Nat.add_assoc]

theorem goodBefore_le (b b' : ℕ) : d.goodBefore b b' ≤ b' := Nat.count_le _

/-- A good block has its place among the usable ones, if there are that many. -/
theorem getElem?_usableFrom {b b' : ℕ} (hle : b ≤ b') (hgood : d.bad b' = false)
    (hlt : d.goodBefore b b' < (d.usableFrom b).length) :
    (d.usableFrom b)[d.goodBefore b b']? = some b' := by
  induction hn : b' - b generalizing b with
  | zero =>
    obtain rfl : b = b' := by omega
    rw [goodBefore_first] at hlt ⊢
    cases hstuck : d.stuck b with
    | true => simp [usableFrom_of_stuck hgood hstuck] at hlt
    | false =>
      rcases Nat.lt_or_ge b d.blocks with hb | hb
      · rw [usableFrom_of_good hb hgood hstuck, List.getElem?_cons_zero]
      · simp [usableFrom_of_le hb] at hlt
  | succ n ih =>
    rw [goodBefore_left (by omega)] at hlt ⊢
    cases hbad : d.bad b with
    | true =>
      rw [usableFrom_of_bad hbad] at hlt ⊢
      simp only [hbad, Bool.true_eq_false, if_false, Nat.zero_add] at hlt ⊢
      exact ih (by omega) hlt (by omega)
    | false =>
      simp only [hbad, if_true] at hlt ⊢
      cases hstuck : d.stuck b with
      | true => simp [usableFrom_of_stuck hbad hstuck] at hlt
      | false =>
        rcases Nat.lt_or_ge b d.blocks with hb | hb
        · rw [usableFrom_of_good hb hbad hstuck, List.length_cons] at hlt
          rw [usableFrom_of_good hb hbad hstuck, Nat.add_comm 1, List.getElem?_cons_succ]
          exact ih (by omega) (by omega) (by omega)
        · simp [usableFrom_of_le hb] at hlt

theorem getD_padded {size i : ℕ} {image : Bytes} (h : i < size) :
    (padded size image).getD i 0xff = image.getD i 0xff := by
  rw [padded, List.getD_eq_getElem?_getD, List.getD_eq_getElem?_getD, List.getElem?_append,
    List.length_take]
  split_ifs with hlt
  · rw [List.getElem?_take_of_lt h]
  · rw [List.getElem?_eq_none (l := image) (by omega), List.getElem?_replicate]
    split_ifs <;> rfl

theorem getElem?_blocksOf {size k j : ℕ} {image : Bytes} (h : j < k) :
    (blocksOf size k image)[j]? = some (padded size (image.drop (j * size))) := by
  induction k generalizing j image with
  | zero => omega
  | succ k ih =>
    rw [blocksOf]
    cases j with
    | zero => rw [List.getElem?_cons_zero, Nat.zero_mul, List.drop_zero]
    | succ j =>
      rw [List.getElem?_cons_succ, ih (by omega), List.drop_drop, Nat.succ_mul, Nat.add_comm size]

/-- Without erasing the image is written from the position on, over what is there. -/
theorem writeLoop_noErase {n : ℕ} {out : List Event} (herase : call.noErase = true)
    (hreads : NoFailure s.reads) (hbuf_le : s.buf.length ≤ s.d.eraseSize) (hoffset : s.offset = 0)
    (hrun : writeLoop call n s = some out) :
    (s.pending ≠ [] → s.cur.pos + s.pending.length ≤ s.d.size) ∧
      ∀ a, applyAll sizes flash out s.dev a = applyAll sizes flash s.events s.dev a &&&
        if s.cur.pos ≤ a then s.pending.getD (a - s.cur.pos) 0xff else 0xff := by
  induction n generalizing s with
  | zero => exact absurd hrun (by simp [writeLoop])
  | succ n ih =>
    have hff : ∀ x : UInt8, x &&& 0xff = x := fun x => UInt8.and_neg_one
    obtain ⟨hbuf, himage, hno⟩ := State.load_eq hreads hbuf_le
    by_cases hne : s.pending = []
    · rw [if_pos hne] at hbuf
      rw [writeLoop, if_pos hbuf] at hrun
      obtain rfl : s.events = out := Option.some.inj hrun
      refine ⟨fun h => absurd hne h, fun a => ?_⟩
      simp [hne, hff]
    · rw [if_neg hne] at hbuf
      have hlen : s.load.buf.length = s.d.eraseSize := by rw [hbuf, length_padded]
      have hfull : s.load.buf ≠ [] := by
        intro hnil
        rw [hnil] at hlen
        exact absurd hlen.symm s.d.eraseSize_pos.ne'
      rw [writeLoop, if_neg hfull, herase, if_pos rfl] at hrun
      obtain ⟨s', hs', hrun⟩ := Option.bind_eq_some_iff.mp hrun
      rw [State.write] at hs'
      split_ifs at hs' with hroom
      have hs' := Option.some.inj hs'
      have hslice : call.slice s.load.buf s.load.offset s.load.buf.length =
          padded s.d.eraseSize s.pending := by
        rw [State.load_offset, hoffset, slice_full, hbuf]
      have hpending : s'.pending = s.pending.drop s.d.eraseSize := by
        rw [← hs', ← himage]
        rfl
      have hpos : s'.cur.pos = s.cur.pos + s.d.eraseSize := by rw [← hs', ← hlen]; rfl
      have hd : s'.d = s.d := by rw [← hs']; rfl
      have hdev : s'.dev = s.dev := by rw [← hs']; rfl
      have hevents : s'.events =
          s.events ++ [.write s.dev s.cur.pos (padded s.d.eraseSize s.pending)] := by
        rw [← hs', ← hslice]
        rfl
      obtain ⟨hfits, hbytes⟩ := @ih s' (by rw [← hs']; exact hno) (by rw [← hs']; exact Nat.zero_le _)
        (by rw [← hs']) hrun
      rw [hpending, hpos, hd, List.length_drop] at hfits
      have hroom' : s.cur.pos + s.d.eraseSize ≤ s.d.size := by
        rw [← hlen]
        exact hroom
      refine ⟨fun _ => ?_, fun a => ?_⟩
      · rcases Nat.lt_or_ge s.d.eraseSize s.pending.length with hlt | hge
        · have := hfits (by simp [List.drop_eq_nil_iff, hlt])
          omega
        · omega
      · have hstep := hbytes a
        rw [hdev, hevents, hpending, hpos, applyAll, applyAll, List.foldl_append] at hstep
        rw [applyAll, hstep]
        show (if _ then _ else _) &&& _ = _
        rw [length_padded]
        by_cases hlo : s.cur.pos ≤ a
        · by_cases hhi : a < s.cur.pos + s.d.eraseSize
          · -- the byte is in the block that is written now
            rw [if_pos ⟨rfl, hlo, hhi⟩, if_neg (by omega), if_pos hlo, getD_padded (by omega), hff]
            rfl
          · rw [if_neg (by omega), if_pos (by omega), if_pos hlo, List.getD_eq_getElem?_getD,
              List.getD_eq_getElem?_getD, List.getElem?_drop,
              show s.d.eraseSize + (a - (s.cur.pos + s.d.eraseSize)) = a - s.cur.pos by omega]
            rfl
        · rw [if_neg (by omega), if_neg (by omega), if_neg hlo]
          rfl

/-- With erasing the blocks of the image are in the usable blocks and nothing else is touched. -/
theorem mtdWrite_erased {head : Bytes} {reads : List Read} {events : List Event}
    (herase : call.noErase = false) (hoffset : call.partOffset = 0)
    (hhead : head.length ≤ d.eraseSize) (hreads : NoFailure reads)
    (hwrite : mtdWrite call [d] head reads = some events) :
    ∃ entries : List ((ℕ × ℕ) × Bytes), events = plan d.eraseSize entries ∧
      entries = (((d.usableFrom 0).map (Prod.mk 0)).take
        (blockCount d.eraseSize (head ++ imageOf reads))).zip (blocksOf d.eraseSize
          (blockCount d.eraseSize (head ++ imageOf reads)) (head ++ imageOf reads)) ∧
      blockCount d.eraseSize (head ++ imageOf reads) ≤ (d.usableFrom 0).length := by
  have hok : WriteOk call [d] 0 d.eraseSize head reads := ⟨herase, hreads, agree_single d _⟩
  obtain ⟨hfits, hevents⟩ := writeLoop_eq (hok.sync (by rw [hoffset, Nat.zero_mul]) hhead) hwrite
  have hplaces : State.places ⟨0, d, [], head, reads, 0, ⟨0, 0, 0, call.partOffset⟩, []⟩ 0 0 =
      (d.usableFrom 0).map (Prod.mk 0) := by
    rw [State.places, slots, List.append_nil]
  have hpending : State.pending ⟨0, d, [], head, reads, 0, ⟨0, 0, 0, call.partOffset⟩, []⟩ =
      head ++ imageOf reads := rfl
  rw [hplaces, hpending] at hfits hevents
  dsimp only at hfits hevents
  rw [List.nil_append, List.zip_eq_zip_take_min, length_blocksOf, Nat.min_eq_right hfits,
    List.take_of_length_le (l := blocksOf ..) (by rw [length_blocksOf])] at hevents
  rw [List.length_map] at hfits
  exact ⟨_, hevents, rfl, hfits⟩

/-- What a successful write leaves where the image would be if no block were bad. -/
theorem mtdWrite_byte {head : Bytes} {reads : List Read} {events : List Event}
    (hoffset : call.partOffset = 0) (hhead : head.length ≤ d.eraseSize) (hreads : NoFailure reads)
    (hwrite : mtdWrite call [d] head reads = some events) {i : ℕ}
    (hi : i < (head ++ imageOf reads).length) :
    i < d.size ∧ applyAll (sizesOf [d]) flash events 0 i =
      rawByte call.noErase d (head ++ imageOf reads) (flash 0) i := by
  have hes := d.eraseSize_pos
  rw [rawByte]
  cases herase : call.noErase with
  | true =>
    obtain ⟨hfits, hbytes⟩ := @writeLoop_noErase _ _ flash (sizesOf [d]) _ _ herase hreads
      hhead rfl hwrite
    have hpending : State.pending ⟨0, d, [], head, reads, 0, ⟨0, 0, 0, call.partOffset⟩, []⟩ =
        head ++ imageOf reads := rfl
    rw [hpending] at hfits hbytes
    have hroom := hfits (List.length_pos_iff.mp (by omega))
    have hbyte := hbytes i
    dsimp only at hroom hbyte
    rw [hoffset, Nat.sub_zero, if_pos (Nat.zero_le _)] at hbyte
    exact ⟨by omega, hbyte⟩
  | false =>
    obtain ⟨entries, rfl, hentries, hfits⟩ := mtdWrite_erased herase hoffset hhead hreads hwrite
    generalize head ++ imageOf reads = image at hi hentries hfits ⊢
    have hcount : blockCount d.eraseSize image ≤ d.blocks := by
      have hle : (d.usableFrom 0).length ≤ d.blocks := by
        have hfilter := List.length_filter_le (fun c => !d.bad c)
          ((List.range' 0 (d.blocks - 0)).takeWhile fun c => d.bad c || !d.stuck c)
        have htake := (List.takeWhile_sublist (l := List.range' 0 (d.blocks - 0))
          fun c => d.bad c || !d.stuck c).length_le
        rw [List.length_range', Nat.sub_zero] at htake
        exact hfilter.trans htake
      exact hfits.trans hle
    have hlength := @length_le_blockCount _ image hes
    have hsize : i < d.size := hi.trans_le (hlength.trans (Nat.mul_le_mul_right _ hcount))
    refine ⟨hsize, ?_⟩
    have hmem : ∀ x ∈ entries, x.1.1 = 0 ∧ x.1.2 ∈ d.usableFrom 0 ∧ x.2.length = d.eraseSize := by
      intro x hx
      rw [hentries] at hx
      obtain ⟨hfst, hsnd⟩ := List.of_mem_zip hx
      obtain ⟨c, hc, hxc⟩ := List.mem_map.mp (List.mem_of_mem_take hfst)
      rw [← hxc]
      exact ⟨rfl, hc, length_of_mem_blocksOf hsnd⟩
    have hsizes : ∀ x ∈ entries, sizesOf [d] x.1.1 = d.eraseSize := by
      intro x hx
      rw [(hmem x hx).1]
      rfl
    have hlens : ∀ x ∈ entries, x.2.length = d.eraseSize := fun x hx => (hmem x hx).2.2
    have hdiv := Nat.div_add_mod' i d.eraseSize
    have hmod := Nat.mod_lt i hes
    cases hbad : d.bad (i / d.eraseSize) with
    | true =>
      rw [if_neg (by decide), if_pos rfl]
      refine applyAll_plan_of_notMem entries hsizes hlens fun x hx heq => ?_
      have hgood := (mem_usableFrom (hmem x hx).2.1).2.2
      rw [heq] at hgood
      exact absurd (hbad.symm.trans hgood) (by decide)
    | false =>
      rw [if_neg (by decide), if_neg (by decide)]
      -- the block is used for the part of the image that its number among the good ones says
      have hj := goodBefore_le (d := d) 0 (i / d.eraseSize)
      have hlt : i / d.eraseSize < blockCount d.eraseSize image := by
        rw [Nat.div_lt_iff_lt_mul hes]
        omega
      have hplace := getElem?_usableFrom (Nat.zero_le _) hbad (by omega)
      have hdat := @getElem?_blocksOf d.eraseSize _ _ image (hj.trans_lt hlt)
      have hx : ((0, i / d.eraseSize), padded d.eraseSize
          (image.drop (d.goodBefore 0 (i / d.eraseSize) * d.eraseSize))) ∈ entries := by
        rw [hentries, List.mem_iff_getElem?]
        refine ⟨d.goodBefore 0 (i / d.eraseSize), ?_⟩
        rw [List.getElem?_zip_eq_some, List.getElem?_take_of_lt (hj.trans_lt hlt), List.getElem?_map,
          hplace]
        exact ⟨rfl, hdat⟩
      have hnodup : (entries.map Prod.fst).Nodup := by
        rw [hentries, List.map_fst_zip]
        · exact (nodup_usableFrom.map (Prod.mk_right_injective 0)).sublist (List.take_sublist ..)
        · rw [List.length_take, length_blocksOf]
          exact Nat.min_le_left _ _
      have hcontents := @contents_plan _ _ flash entries hsizes hlens hnodup _ hx
      have hget := congrArg (fun l => l.getD (i % d.eraseSize) 0xff) hcontents
      simp only [getD_padded hmod, contents, List.getD_eq_getElem?_getD, List.getElem?_drop,
        List.getElem?_map, List.getElem?_range hmod, Option.map_some, Option.getD_some, hdiv] at hget
      rw [hget, List.getD_eq_getElem?_getD]

end Writing

/-- The good blocks of a device. -/
def Device.goodBlocks (d : Device) : List ℕ := (List.range d.blocks).filter fun b => !d.bad b

/-- What the good blocks hold, in order. -/
def goodContents (d : Device) (mem : ℕ → UInt8) : Bytes :=
  d.goodBlocks.flatMap (contents d.eraseSize mem)

section Good

variable {d : Device} {mem : ℕ → UInt8} {image : Bytes}

theorem getElem?_flatMap_contents {size : ℕ} (hsize : 0 < size) (blocks : List ℕ) (i : ℕ) :
    (blocks.flatMap (contents size mem))[i]? =
      blocks[i / size]?.map fun b => mem (b * size + i % size) := by
  induction blocks generalizing i with
  | nil => simp
  | cons b blocks ih =>
    have hlength : (contents size mem b).length = size := by simp [contents]
    rw [List.flatMap_cons, List.getElem?_append, hlength]
    split_ifs with hlt
    · rw [Nat.div_eq_of_lt hlt, Nat.mod_eq_of_lt hlt, List.getElem?_cons_zero, contents,
        List.getElem?_map, List.getElem?_range hlt]
      rfl
    · have hle : size ≤ i := by omega
      rw [ih, Nat.div_eq_sub_div (a := i) hsize hle, List.getElem?_cons_succ,
        Nat.mod_eq_sub_mod (a := i) hle]

theorem prefix_goodContents_iff : image <+: goodContents d mem ↔ ∀ i < image.length,
    ∃ b, d.goodBlocks[i / d.eraseSize]? = some b ∧
      mem (b * d.eraseSize + i % d.eraseSize) = image.getD i 0xff := by
  rw [List.prefix_iff_getElem?]
  refine forall₂_congr fun i hi => ?_
  rw [goodContents, getElem?_flatMap_contents d.eraseSize_pos, Option.map_eq_some_iff,
    List.getD_eq_getElem?_getD, List.getElem?_eq_getElem hi, Option.getD_some]

/-- If no block is bad up to there, the good blocks are the first ones. -/
theorem getElem?_goodBlocks {b : ℕ} (hlt : b < d.blocks) (h : ∀ c ≤ b, d.bad c = false) :
    d.goodBlocks[b]? = some b := by
  have hsplit : List.range d.blocks =
      List.range (b + 1) ++ (List.range (d.blocks - (b + 1))).map (b + 1 + ·) := by
    rw [← List.range_add]
    congr 1
    omega
  have hall : (List.range (b + 1)).filter (fun c => !d.bad c) = List.range (b + 1) := by
    rw [List.filter_eq_self]
    intro c hc
    rw [h c (by have := List.mem_range.mp hc; omega)]
    rfl
  rw [Device.goodBlocks, hsplit, List.filter_append, hall, List.getElem?_append_left (by simp),
    List.getElem?_range (by omega)]

end Good

/-- No block is bad among those that hold the first bytes of a device. -/
def Device.Clear (d : Device) (n : ℕ) : Prop := ∀ b, b * d.eraseSize < n → d.bad b = false

section Result

variable {m : Md5} {call : Call} {d : Device} {head : Bytes} {reads : List Read}
  {events : List Event} {outcomes : List DevRead}

/-- The image is what it is, bad blocks or not, where none is in the way. -/
theorem rawByte_of_clear {image : Bytes} {mem : ℕ → UInt8} (h : d.Clear image.length) {i : ℕ}
    (hi : i < image.length) : rawByte false d image mem i = image.getD i 0xff := by
  have hdiv := Nat.div_add_mod' i d.eraseSize
  have hgood : ∀ c ≤ i / d.eraseSize, d.bad c = false := fun c hc =>
    h c ((Nat.mul_le_mul_right _ hc).trans_lt (by omega))
  rw [rawByte, if_neg (by decide), hgood _ le_rfl, if_neg (by decide),
    goodBefore_of_good (Nat.zero_le _) fun c _ hc => hgood c hc.le, Nat.sub_zero, hdiv]

/-- Leaving out the bad blocks makes no difference where there are none. -/
theorem goodByte_of_clear (mem : ℕ → UInt8) {n i : ℕ} (h : d.Clear n) (hi : i < n)
    (hsize : i < d.size) : ∃ b, d.goodBlocks[i / d.eraseSize]? = some b ∧
      mem (b * d.eraseSize + i % d.eraseSize) = mem i := by
  have hdiv := Nat.div_add_mod' i d.eraseSize
  have hblock : i / d.eraseSize < d.blocks := by
    rw [Nat.div_lt_iff_lt_mul d.eraseSize_pos]
    exact hsize
  have hgood : ∀ c ≤ i / d.eraseSize, d.bad c = false := fun c hc =>
    h c ((Nat.mul_le_mul_right _ hc).trans_lt (by omega))
  exact ⟨i / d.eraseSize, getElem?_goodBlocks hblock hgood, by rw [hdiv]⟩

/-- An image that was written is accepted exactly if the first bytes of the device, bad blocks
included, are the image again. And a device that is accepted has the image in its good blocks
exactly if leaving out the bad blocks makes no difference where the device begins with the
image. -/
theorem mtdVerify_iff (flash : Flash) (mem : ℕ → UInt8) (hoffset : call.partOffset = 0)
    (hhead : head.length ≤ d.eraseSize) (hreads : NoFailure reads)
    (hwrite : mtdWrite call [d] head reads = some events) (houtcomes : DevRead.failed ∉ outcomes)
    (hwritten : m.NoCollision (head ++ imageOf reads)
      (rawPrefix d (applyAll (sizesOf [d]) flash events 0) (head ++ imageOf reads)))
    (hmem : m.NoCollision (head ++ imageOf reads) (rawPrefix d mem (head ++ imageOf reads))) :
    (mtdVerify m (some (head ++ imageOf reads))
        (some (d, applyAll (sizesOf [d]) flash events 0)) outcomes = some 0 ↔
      ∀ i < (head ++ imageOf reads).length,
        rawByte call.noErase d (head ++ imageOf reads) (flash 0) i =
          (head ++ imageOf reads).getD i 0xff) ∧
    ((mtdVerify m (some (head ++ imageOf reads)) (some (d, mem)) outcomes = some 0 →
        head ++ imageOf reads <+: goodContents d mem) ↔
      ((∀ i < (head ++ imageOf reads).length,
          i < d.size ∧ mem i = (head ++ imageOf reads).getD i 0xff) →
        ∀ i < (head ++ imageOf reads).length, ∃ b, d.goodBlocks[i / d.eraseSize]? = some b ∧
          mem (b * d.eraseSize + i % d.eraseSize) = mem i)) := by
  have hsum : ∀ mem', m.NoCollision (head ++ imageOf reads) (rawPrefix d mem' (head ++ imageOf reads)) →
      (mtdVerify m (some (head ++ imageOf reads)) (some (d, mem')) outcomes = some 0 ↔
        ∀ i < (head ++ imageOf reads).length,
          i < d.size ∧ mem' i = (head ++ imageOf reads).getD i 0xff) := by
    intro mem' hcol
    rw [mtdVerify_eq_zero houtcomes, ← rawPrefix_eq_iff]
    exact ⟨hcol, fun h => by rw [h]⟩
  constructor
  · rw [hsum _ hwritten]
    refine forall₂_congr fun i hi => ?_
    obtain ⟨hsize, hbyte⟩ := @mtdWrite_byte _ _ flash _ _ _ hoffset hhead hreads hwrite i hi
    rw [hbyte, and_iff_right hsize]
  · rw [hsum _ hmem, prefix_goodContents_iff]
    refine forall_congr' fun hraw => forall₂_congr fun i hi => exists_congr fun b => ?_
    rw [(hraw i hi).2]

end Result

/-- The sums of a few data. -/
def sumOf (dat : Bytes) : Bytes :=
  if dat = [1, 2, 3] then
    [82, 137, 223, 115, 125, 245, 115, 38, 252, 221, 34, 89, 122, 251, 31, 172]
  else if dat = [0, 0, 1] then
    [56, 14, 30, 85, 223, 86, 0, 254, 103, 238, 116, 198, 103, 194, 122, 174]
  else List.replicate 16 0

/-- MD5 on these data. -/
def smallMd5 : Md5 where
  Ctx := Bytes
  start := []
  hash := fun c dat => c ++ dat
  finish := sumOf
  hash_nil := List.append_nil
  hash_append := fun c a b => (List.append_assoc c a b).symm
  length_finish := by
    intro c
    rw [sumOf]
    split_ifs <;> rfl

/-- A device of four blocks of two bytes each, the last of them bad. -/
def lastBad : Device where
  eraseSize := 2
  blocks := 4
  nand := true
  bad := fun b => b == 3
  stuck := fun _ => false
  eraseSize_pos := Nat.two_pos
  bad_lt := by simp

/-- Where the bad block is behind the image, it is accepted, and what is accepted is in the good
blocks. -/
theorem written_accepted : ∃ events,
    mtdWrite (plainCall 0) [lastBad] [1] [.got [2, 3]] = some events ∧
      mtdVerify smallMd5 (some [1, 2, 3])
        (some (lastBad, applyAll (sizesOf [lastBad]) (fun _ _ => 0) events 0)) [.again, .upTo 0] =
          some 0 ∧
      [1, 2, 3] <+: goodContents lastBad fun a => [1, 2, 3].getD a 0 := by
  have hrun : mtdWrite (plainCall 0) [lastBad] [1] [.got [2, 3]] =
      some [.erase 0 0, .write 0 0 [1, 2], .erase 0 1, .write 0 2 [3, 0xff]] := by
    decide +kernel
  have hcol : ∀ mem, rawPrefix lastBad mem [1, 2, 3] = [1, 2, 3] →
      smallMd5.NoCollision [1, 2, 3] (rawPrefix lastBad mem [1, 2, 3]) := fun mem h _ => h
  have hclear : lastBad.Clear 3 := by
    intro b hb
    change b * 2 < 3 at hb
    exact beq_false_of_ne (by omega)
  have hreads : NoFailure [.got [2, 3]] := trivial
  obtain ⟨haccept, hfound⟩ := mtdVerify_iff (m := smallMd5) (fun _ _ => 0)
    (fun a => [1, 2, 3].getD a 0) rfl (by decide) hreads hrun
    (by decide : DevRead.failed ∉ [.again, .upTo 0]) (hcol _ (by decide +kernel))
    (hcol _ (by decide +kernel))
  refine ⟨_, hrun, haccept.mpr fun i hi => ?_, hfound.mpr (fun hraw i hi => ?_) (by decide +kernel)⟩
  · exact rawByte_of_clear hclear hi
  · exact goodByte_of_clear (fun a => [1, 2, 3].getD a 0) hclear hi (hraw i hi).1

/-- Behind a bad block the image is not accepted, and a device that begins with the image over
its bad block is, though the image is not in its good blocks. -/
theorem exists_written_refused :
    (∃ events, mtdWrite (plainCall 0) [smallDevice] [1] [.got [2, 3]] = some events ∧
      mtdVerify smallMd5 (some [1, 2, 3])
        (some (smallDevice, applyAll (sizesOf [smallDevice]) (fun _ _ => 0) events 0)) [] ≠ some 0) ∧
    mtdVerify smallMd5 (some [1, 2, 3]) (some (smallDevice, fun a => [1, 2, 3].getD a 0)) [] =
        some 0 ∧
      ¬ [1, 2, 3] <+: goodContents smallDevice fun a => [1, 2, 3].getD a 0 := by
  have hrun : mtdWrite (plainCall 0) [smallDevice] [1] [.got [2, 3]] =
      some [.erase 0 1, .write 0 2 [1, 2], .erase 0 2, .write 0 4 [3, 0xff]] := by
    decide +kernel
  exact ⟨⟨_, hrun, by decide +kernel⟩, by decide +kernel, by decide +kernel⟩

end NeonWrt.Mtd
