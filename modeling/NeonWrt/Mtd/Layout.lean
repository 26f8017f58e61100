import NeonWrt.Mtd.Write

/-!
# Where an image goes

The good blocks of the devices, from the offset on and up to the first that
cannot be erased, are the places for an image. `mtd_write` puts the padded blocks
of the image there in order, as long as the bad-block flags it looks up, which
are those of the blocks without the offset, are those of the blocks it erases,
and as long as no device is left behind on which it has skipped a bad block.
-/

namespace NeonWrt.Mtd

open Lib

/-- The good blocks from `b` on, up to the first that cannot be erased. -/
def Device.usableFrom (d : Device) (b : ℕ) : List ℕ :=
  ((List.range' b (d.blocks - b)).takeWhile fun c => d.bad c || !d.stuck c).filter fun c => !d.bad c

/-- The places for an image on a list of devices, counted from `i`. -/
def slots (first : ℕ) : ℕ → List Device → List (ℕ × ℕ)
  | _, [] => []
  | i, d :: ds => (d.usableFrom first).map (Prod.mk i) ++ slots first (i + 1) ds

section Usable

variable {d : Device} {b b' : ℕ}

theorem range'_succ_left (h : b < d.blocks) :
    List.range' b (d.blocks - b) = b :: List.range' (b + 1) (d.blocks - (b + 1)) := by
  rw [show d.blocks - b = d.blocks - (b + 1) + 1 by omega, List.range'_succ]

theorem usableFrom_of_le (h : d.blocks ≤ b) : d.usableFrom b = [] := by
  rw [Device.usableFrom, show d.blocks - b = 0 by omega]
  rfl

theorem usableFrom_of_bad (h : d.bad b = true) : d.usableFrom b = d.usableFrom (b + 1) := by
  rw [Device.usableFrom, range'_succ_left (d.bad_lt b h).2, List.takeWhile_cons_of_pos (by simp [h]),
    List.filter_cons_of_neg (by simp [h]), Device.usableFrom]

theorem usableFrom_of_good (hlt : b < d.blocks) (hbad : d.bad b = false) (hstuck : d.stuck b = false) :
    d.usableFrom b = b :: d.usableFrom (b + 1) := by
  rw [Device.usableFrom, range'_succ_left hlt, List.takeWhile_cons_of_pos (by simp [hstuck]),
    List.filter_cons_of_pos (by simp [hbad]), Device.usableFrom]

theorem usableFrom_of_stuck (hbad : d.bad b = false) (hstuck : d.stuck b = true) :
    d.usableFrom b = [] := by
  rcases Nat.lt_or_ge b d.blocks with hlt | hle
  · rw [Device.usableFrom, range'_succ_left hlt, List.takeWhile_cons_of_neg (by simp [hbad, hstuck]),
      List.filter_nil]
  · exact usableFrom_of_le hle

theorem usableFrom_skip (hle : b ≤ b') (h : ∀ c, b ≤ c → c < b' → d.bad c = true) :
    d.usableFrom b = d.usableFrom b' := by
  induction b', hle using Nat.le_induction with
  | base => rfl
  | succ b' hle ih =>
    rw [ih fun c hc hlt => h c hc (by omega), usableFrom_of_bad (h b' hle (by omega))]

theorem mem_usableFrom {c : ℕ} (h : c ∈ d.usableFrom b) : b ≤ c ∧ c < d.blocks ∧ d.bad c = false := by
  rw [Device.usableFrom, List.mem_filter] at h
  obtain ⟨hmem, hgood⟩ := h
  have hrange := List.mem_range'_1.mp ((List.takeWhile_sublist _).subset hmem)
  refine ⟨hrange.1, by omega, by simpa using hgood⟩

theorem nodup_usableFrom : (d.usableFrom b).Nodup :=
  ((List.nodup_range' ..).sublist (List.takeWhile_sublist _)).filter _

end Usable

/-- The number of blocks an image takes. -/
def blockCount (size : ℕ) (image : Bytes) : ℕ := (image.length + size - 1) / size

/-- A block of the image, padded. -/
def padded (size : ℕ) (image : Bytes) : Bytes :=
  image.take size ++ List.replicate (size - image.length) 0xff

/-- The first blocks of an image, the last one padded. -/
def blocksOf (size : ℕ) : ℕ → Bytes → List Bytes
  | 0, _ => []
  | k + 1, image => padded size image :: blocksOf size k (image.drop size)

section Blocks

variable {size k : ℕ} {image : Bytes}

theorem length_padded : (padded size image).length = size := by
  simp only [padded, List.length_append, List.length_take, List.length_replicate]
  omega

@[simp] theorem length_blocksOf : (blocksOf size k image).length = k := by
  induction k generalizing image with
  | zero => rfl
  | succ k ih => rw [blocksOf, List.length_cons, ih]

theorem length_of_mem_blocksOf {dat : Bytes} (h : dat ∈ blocksOf size k image) : dat.length = size := by
  induction k generalizing image with
  | zero => exact absurd h List.not_mem_nil
  | succ k ih =>
    rcases List.mem_cons.mp h with rfl | hmem
    · exact length_padded
    · exact ih hmem

theorem blockCount_nil (hsize : 0 < size) : blockCount size [] = 0 :=
  Nat.div_eq_of_lt (by simp; omega)

theorem blockCount_of_ne_nil (hsize : 0 < size) (h : image ≠ []) :
    blockCount size image = blockCount size (image.drop size) + 1 := by
  have hpos := List.length_pos_iff.mpr h
  rw [blockCount, blockCount, List.length_drop]
  rcases Nat.lt_or_ge image.length size with hlt | hge
  · rw [Nat.sub_eq_zero_of_le hlt.le, Nat.div_eq_of_lt (show 0 + size - 1 < size by omega),
      Nat.div_eq_of_lt_le (k := 1) (by omega) (by omega)]
  · rw [show image.length + size - 1 = image.length - size + size - 1 + size by omega,
      Nat.add_div_right _ hsize]

/-- A block that is padded already stays as it is. -/
theorem padded_append {rest : Bytes} :
    padded size (padded size image ++ rest) = padded size image ∧
      (padded size image ++ rest).drop size = rest := by
  have hlen := @length_padded size image
  constructor
  · rw [padded, List.take_left' hlen, List.length_append, hlen,
      Nat.sub_eq_zero_of_le (Nat.le_add_right ..), List.replicate_zero, List.append_nil]
  · exact List.drop_left' hlen

/-- The blocks together are the image and its padding. -/
theorem flatten_blocksOf (hle : image.length ≤ k * size) :
    (blocksOf size k image).flatten = image ++ List.replicate (k * size - image.length) 0xff := by
  induction k generalizing image with
  | zero =>
    obtain rfl : image = [] := List.length_eq_zero_iff.mp (by omega)
    simp [blocksOf]
  | succ k ih =>
    rw [Nat.succ_mul] at hle ⊢
    have hdrop : (image.drop size).length ≤ k * size := by
      rw [List.length_drop]
      omega
    rw [blocksOf, List.flatten_cons, ih hdrop, padded, List.length_drop]
    rcases Nat.lt_or_ge image.length size with hlt | hge
    · -- the last block that has data, with padding behind it
      rw [List.take_of_length_le hlt.le, List.drop_of_length_le hlt.le, List.nil_append,
        List.append_assoc, List.replicate_append_replicate]
      congr 2
      omega
    · rw [Nat.sub_eq_zero_of_le hge, List.replicate_zero, List.append_nil, ← List.append_assoc,
        List.take_append_drop]
      congr 2
      omega

theorem length_le_blockCount (hsize : 0 < size) : image.length ≤ blockCount size image * size := by
  have hlt := Nat.lt_div_mul_add hsize (a := image.length + size - 1)
  rw [blockCount]
  omega

end Blocks

/-- No read of the image fails. -/
def NoFailure : List Read → Prop
  | [] => True
  | .failed :: _ => False
  | _ :: reads => NoFailure reads

/-- Without failures the buffer gets the next bytes of the image, whatever the reads deliver. -/
theorem fill_eq {room : ℕ} {reads : List Read} (h : NoFailure reads) :
    (fill room reads).1 = (imageOf reads).take room ∧
      imageOf (fill room reads).2 = (imageOf reads).drop room ∧ NoFailure (fill room reads).2 := by
  induction reads generalizing room with
  | nil => simp [fill, imageOf, NoFailure]
  | cons r reads ih =>
    cases r with
    | again =>
      rw [fill]
      split_ifs with hzero
      · simp [hzero, imageOf, h]
      · simpa [imageOf] using ih h
    | failed => exact absurd h id
    | got dat =>
      rw [fill]
      split_ifs with hle
      · obtain ⟨hdat, himage, hno⟩ := @ih (room - dat.length) h
        refine ⟨?_, ?_, hno⟩
        · rw [imageOf, List.take_append, List.take_of_length_le hle, ← hdat]
        · rw [imageOf, List.drop_append, List.drop_of_length_le hle, List.nil_append]
          exact himage
      · refine ⟨?_, ?_, h⟩
        · rw [imageOf, List.take_append_of_le_length (by omega)]
        · rw [imageOf, imageOf, List.drop_append_of_le_length (by omega)]

/-- The number of good blocks from the first one on and before `b`. -/
def Device.goodBefore (d : Device) (first b : ℕ) : ℕ :=
  Nat.count (fun c => first ≤ c ∧ d.bad c = false) b

/-- A block that the loop comes to while it has blocks left to write, out of `k`. -/
structure Reached (d : Device) (first k b : ℕ) : Prop where
  le : first ≤ b
  le_blocks : b ≤ max first d.blocks
  count : d.goodBefore first b < k
  free : ∀ c, first ≤ c → c < b → d.bad c = true ∨ d.stuck c = false

/-- The device has no more room from `b` on. -/
def Device.EndsAt (d : Device) (b : ℕ) : Prop := d.blocks ≤ b ∨ d.bad b = false ∧ d.stuck b = true

/-- At every block that is reached the flag looked up is the flag of the block. Where a device is
left for another one, no bad block was skipped on it, and the other has blocks of the same size. -/
def Agree (first : ℕ) : List Device → ℕ → Prop
  | [], _ => True
  | d :: ds, k => ∀ b, Reached d first k b →
      d.bad (b - first) = d.bad b ∧
        (d.EndsAt b → ∀ d' ∈ ds.head?, (∀ c, first ≤ c → c < b → d.bad c = false) ∧
          d'.eraseSize = d.eraseSize ∧ Agree first ds (k - (b - first)))

section Erase

variable {d : Device} {first k b b' : ℕ}

theorem goodBefore_succ (hle : first ≤ b) :
    d.goodBefore first (b + 1) = d.goodBefore first b + if d.bad b = false then 1 else 0 := by
  rw [Device.goodBefore, Nat.count_succ, Device.goodBefore]
  simp [hle]

theorem goodBefore_first : d.goodBefore first first = 0 := by
  rw [Device.goodBefore, Nat.count_iff_forall_not]
  rintro c hc ⟨hle, -⟩
  omega

theorem goodBefore_skip (hfirst : first ≤ b) (hle : b ≤ b')
    (h : ∀ c, b ≤ c → c < b' → d.bad c = true) : d.goodBefore first b' = d.goodBefore first b := by
  induction b', hle using Nat.le_induction with
  | base => rfl
  | succ b' hle ih =>
    rw [goodBefore_succ (hfirst.trans hle), ih fun c hc hlt => h c hc (by omega),
      h b' hle (by omega)]
    simp

theorem goodBefore_of_good (hle : first ≤ b) (h : ∀ c, first ≤ c → c < b → d.bad c = false) :
    d.goodBefore first b = b - first := by
  induction b, hle using Nat.le_induction with
  | base => rw [goodBefore_first, Nat.sub_self]
  | succ b hle ih =>
    rw [goodBefore_succ hle, ih fun c hc hlt => h c hc (by omega), if_pos (h b hle (by omega))]
    omega

/-- What the request for a block says, where it does not fail. -/
theorem blockIsBad_mul {j : ℕ} : d.blockIsBad (j * d.eraseSize) = none ∨
    d.blockIsBad (j * d.eraseSize) = some (d.bad j) := by
  rw [Device.blockIsBad]
  split_ifs with hnand hlt
  · have hgood : d.bad j = false := by
      by_contra hne
      have hbad := d.bad_lt j (by simpa using hne)
      simp [hbad.1] at hnand
    exact .inr (by rw [hgood])
  · exact .inr (by rw [Nat.mul_div_cancel _ d.eraseSize_pos])
  · exact .inl rfl

theorem eraseBlock_mul : d.eraseBlock (b * d.eraseSize) = true ↔
    b < d.blocks ∧ d.bad b = false ∧ d.stuck b = false := by
  rw [Device.eraseBlock, Nat.mul_div_cancel _ d.eraseSize_pos, Device.size]
  simp [Nat.mul_lt_mul_right d.eraseSize_pos, and_assoc]

/-- The erase loop goes over bad blocks to the first that is not, and erases it if it can. -/
theorem eraseAhead_cases (dev : ℕ) {w skip : ℕ} (n : ℕ) {events : List Event} (hfirst : first ≤ b)
    (hle : b ≤ max first d.blocks) (hw : w + skip = (b - first) * d.eraseSize)
    (hflag : ∀ b', b ≤ b' → b' ≤ max first d.blocks → (∀ c, b ≤ c → c < b' → d.bad c = true) →
      d.bad (b' - first) = d.bad b') :
    eraseAhead dev d (first * d.eraseSize) d.eraseSize n
        ⟨w, (b - first) * d.eraseSize, skip, b * d.eraseSize⟩ events = .exit ∨
      ∃ b', b ≤ b' ∧ b' ≤ max first d.blocks ∧ (∀ c, b ≤ c → c < b' → d.bad c = true) ∧
        ((b' < d.blocks ∧ d.bad b' = false ∧ d.stuck b' = false ∧
          eraseAhead dev d (first * d.eraseSize) d.eraseSize n
              ⟨w, (b - first) * d.eraseSize, skip, b * d.eraseSize⟩ events =
            .ready ⟨w, (b' + 1 - first) * d.eraseSize, skip + (b' - b) * d.eraseSize,
              b' * d.eraseSize⟩ (events ++ [.erase dev b'])) ∨
        (d.EndsAt b' ∧
          eraseAhead dev d (first * d.eraseSize) d.eraseSize n
              ⟨w, (b - first) * d.eraseSize, skip, b * d.eraseSize⟩ events =
            .refused ⟨w, (b' - first) * d.eraseSize, skip + (b' - b) * d.eraseSize,
              b' * d.eraseSize⟩ events)) := by
  have hpos := d.eraseSize_pos
  induction n generalizing b w skip with
  | zero => exact .inl rfl
  | succ n ih =>
    have hsucc : (b - first) * d.eraseSize + d.eraseSize = (b + 1 - first) * d.eraseSize := by
      rw [show b + 1 - first = b - first + 1 by omega, Nat.succ_mul]
    have hflagb := hflag b le_rfl hle fun c hc hlt => by omega
    rw [eraseAhead, if_neg (by dsimp only; omega)]
    dsimp only
    rcases @blockIsBad_mul d (b - first) with hnone | hsome
    · rw [hnone]
      exact .inl rfl
    · rw [hsome, hflagb]
      cases hbad : d.bad b with
      | true =>
        have hlt := (d.bad_lt b hbad).2
        have hpos' : b * d.eraseSize + d.eraseSize = (b + 1) * d.eraseSize := (Nat.succ_mul ..).symm
        rw [hsucc, hpos']
        have hrec := @ih (b + 1) w (skip + d.eraseSize) (by omega) (by omega) (by omega) (by
          intro b' hb' hle' hall
          refine hflag b' (by omega) hle' fun c hc hclt => ?_
          by_cases hcb : c = b
          · rw [hcb, hbad]
          · exact hall c (by omega) hclt)
        refine hrec.imp_right ?_
        rintro ⟨b', hb', hle', hall, hend⟩
        have hskip : skip + d.eraseSize + (b' - (b + 1)) * d.eraseSize =
            skip + (b' - b) * d.eraseSize := by
          rw [show b' - b = b' - (b + 1) + 1 by omega, Nat.succ_mul]
          omega
        rw [hskip] at hend
        refine ⟨b', by omega, hle', fun c hc hclt => ?_, hend⟩
        by_cases hcb : c = b
        · rw [hcb, hbad]
        · exact hall c (by omega) hclt
      | false =>
        have haddr : (b - first) * d.eraseSize + first * d.eraseSize = b * d.eraseSize := by
          rw [← Nat.add_mul, Nat.sub_add_cancel hfirst]
        dsimp only
        rw [haddr]
        by_cases herase : d.eraseBlock (b * d.eraseSize) = true
        · obtain ⟨hlt, -, hstuck⟩ := eraseBlock_mul.mp herase
          rw [if_pos herase, Nat.mul_div_cancel _ hpos, hsucc]
          -- one erased block is enough for a full buffer
          cases n with
          | zero => exact .inl rfl
          | succ n =>
            refine .inr ⟨b, le_rfl, hle, fun c hc hclt => by omega, .inl ⟨hlt, hbad, hstuck, ?_⟩⟩
            rw [eraseAhead, if_pos (by dsimp only; omega)]
            simp
        · rw [if_neg herase]
          refine .inr ⟨b, le_rfl, hle, fun c hc hclt => by omega, .inr ⟨?_, by simp⟩⟩
          rcases Nat.lt_or_ge b d.blocks with hlt | hge
          · refine .inr ⟨hbad, ?_⟩
            by_contra hne
            exact herase (eraseBlock_mul.mpr ⟨hlt, hbad, by simpa using hne⟩)
          · exact .inl hge

end Erase

/-- Each block of the image is written to its place once that is erased. -/
def plan (size : ℕ) (entries : List ((ℕ × ℕ) × Bytes)) : List Event :=
  entries.flatMap fun x => [.erase x.1.1 x.1.2, .write x.1.1 (x.1.2 * size) x.2]

namespace State

variable (s : State)

@[simp] theorem load_dev : s.load.dev = s.dev := rfl

@[simp] theorem load_d : s.load.d = s.d := rfl

@[simp] theorem load_next : s.load.next = s.next := rfl

@[simp] theorem load_offset : s.load.offset = s.offset := rfl

@[simp] theorem load_cur : s.load.cur = s.cur := rfl

@[simp] theorem load_events : s.load.events = s.events := rfl

/-- The data that is not written yet. -/
def pending : Bytes := s.buf ++ imageOf s.reads

/-- The places that are left, from block `b` of the device on. -/
def places (first b : ℕ) : List (ℕ × ℕ) :=
  (s.d.usableFrom b).map (Prod.mk s.dev) ++ slots first (s.dev + 1) s.next

end State

/-- The loop has come to block `b`, and all before it on this device went well. -/
structure Sync (call : Call) (first k b : ℕ) (s : State) : Prop where
  noErase : call.noErase = false
  partOffset : call.partOffset = first * s.d.eraseSize
  reads : NoFailure s.reads
  buf_le : s.buf.length ≤ s.d.eraseSize
  offset : s.offset = 0
  le : first ≤ b
  le_blocks : b ≤ max first s.d.blocks
  e : s.cur.e = (b - first) * s.d.eraseSize
  pos : s.cur.pos = b * s.d.eraseSize
  w : s.cur.w + s.cur.skip = s.cur.e
  skip : (∀ c, first ≤ c → c < b → s.d.bad c = false) → s.cur.skip = 0
  free : ∀ c, first ≤ c → c < b → s.d.bad c = true ∨ s.d.stuck c = false
  count : s.d.goodBefore first b + blockCount s.d.eraseSize s.pending = k
  agree : Agree first (s.d :: s.next) k

section Runs

variable {call : Call} {first k b b' : ℕ} {s : State}

/-- The buffer that is loaded is the next block of the image, padded. -/
theorem State.load_eq (hreads : NoFailure s.reads) (hbuf_le : s.buf.length ≤ s.d.eraseSize) :
    s.load.buf = (if s.pending = [] then [] else padded s.d.eraseSize s.pending) ∧
      imageOf s.load.reads = s.pending.drop s.d.eraseSize ∧ NoFailure s.load.reads := by
  obtain ⟨hdat, himage, hno⟩ := @fill_eq (s.d.eraseSize - s.buf.length) s.reads hreads
  have hbuf : s.buf ++ (fill (s.d.eraseSize - s.buf.length) s.reads).1 =
      s.pending.take s.d.eraseSize := by
    rw [hdat, State.pending, List.take_append, List.take_of_length_le hbuf_le]
  refine ⟨?_, ?_, hno⟩
  · have hpos := s.d.eraseSize_pos
    rw [State.load]
    dsimp only
    rw [hbuf]
    by_cases hnil : s.pending = []
    · simp [hnil]
    · have htake : s.pending.take s.d.eraseSize ≠ [] := by
        simp [List.take_eq_nil_iff, hnil, hpos.ne']
      rw [if_neg htake, if_neg hnil, padded, List.length_take]
      congr 2
      omega
  · rw [State.load]
    dsimp only
    rw [himage, State.pending, List.drop_append, List.drop_of_length_le hbuf_le, List.nil_append]

theorem Sync.load_eq (h : Sync call first k b s) :
    s.load.buf = (if s.pending = [] then [] else padded s.d.eraseSize s.pending) ∧
      imageOf s.load.reads = s.pending.drop s.d.eraseSize ∧ NoFailure s.load.reads :=
  State.load_eq h.reads h.buf_le

theorem Sync.reached (h : Sync call first k b s) (hne : s.pending ≠ []) (hle : b ≤ b')
    (hblocks : b' ≤ max first s.d.blocks) (hall : ∀ c, b ≤ c → c < b' → s.d.bad c = true) :
    Reached s.d first k b' where
  le := h.le.trans hle
  le_blocks := hblocks
  count := by
    have hcount := h.count
    rw [blockCount_of_ne_nil s.d.eraseSize_pos hne] at hcount
    rw [goodBefore_skip h.le hle hall]
    omega
  free := by
    intro c hc hlt
    rcases Nat.lt_or_ge c b with hcb | hbc
    · exact h.free c hc hcb
    · exact .inl (hall c hbc hlt)

theorem slice_full {buf : Bytes} : call.slice buf 0 buf.length = buf := by
  apply List.ext_getElem
  · simp [Call.slice]
  · intro i hi hi'
    simp [Call.slice, hi']

/-- The state after a block was erased and the buffer written to it. -/
def State.wrote (s : State) (first b' skip : ℕ) : State :=
  { s.load with
    buf := []
    offset := 0
    cur := ⟨s.cur.w + s.d.eraseSize, (b' + 1 - first) * s.d.eraseSize, skip,
      (b' + 1) * s.d.eraseSize⟩
    events := s.events ++ [.erase s.dev b'] ++
      [.write s.dev (b' * s.d.eraseSize) (padded s.d.eraseSize s.pending)] }

/-- The state after the next device was opened, with the buffer still to be written. -/
def State.moved (s : State) (call : Call) (d : Device) (next : List Device) : State :=
  { s.load with dev := s.dev + 1, d := d, next := next, cur := ⟨0, 0, 0, call.partOffset⟩ }

theorem Sync.wrote (h : Sync call first k b s) (hne : s.pending ≠ []) (hle : b ≤ b')
    (hlt : b' < s.d.blocks) (hall : ∀ c, b ≤ c → c < b' → s.d.bad c = true)
    (hbad : s.d.bad b' = false) (hstuck : s.d.stuck b' = false) :
    Sync call first k (b' + 1) (s.wrote first b' (s.cur.skip + (b' - b) * s.d.eraseSize)) := by
  obtain ⟨-, himage, hno⟩ := h.load_eq
  have hfirst := h.le
  have hpending : (s.wrote first b' (s.cur.skip + (b' - b) * s.d.eraseSize)).pending =
      s.pending.drop s.d.eraseSize := himage
  refine ⟨h.noErase, h.partOffset, hno, Nat.zero_le _, rfl, by omega, ?_, rfl, rfl, ?_, ?_, ?_, ?_,
    h.agree⟩
  · exact le_max_of_le_right hlt
  · -- the bytes written and skipped are those passed
    have hw := h.w
    rw [h.e] at hw
    show s.cur.w + s.d.eraseSize + (s.cur.skip + (b' - b) * s.d.eraseSize) = _
    calc s.cur.w + s.d.eraseSize + (s.cur.skip + (b' - b) * s.d.eraseSize)
        = (b - first) * s.d.eraseSize + ((b' - b) * s.d.eraseSize + s.d.eraseSize) := by omega
      _ = (b' + 1 - first) * s.d.eraseSize := by
        rw [← Nat.succ_mul, ← Nat.add_mul]
        congr 1
        omega
  · intro hgood
    have hskip := h.skip fun c hc hclt => hgood c hc (by omega)
    have heq : b' = b := by
      by_contra hne
      have hfalse : s.d.bad b = false := hgood b hfirst (by omega)
      rw [hall b le_rfl (by omega)] at hfalse
      exact absurd hfalse (by decide)
    show s.cur.skip + (b' - b) * s.d.eraseSize = 0
    rw [hskip, heq, Nat.sub_self, Nat.zero_mul]
  · intro c hc hclt
    rcases Nat.lt_or_ge c b with hcb | hbc
    · exact h.free c hc hcb
    · rcases Nat.lt_or_eq_of_le (Nat.le_of_lt_succ hclt) with hcb' | rfl
      · exact .inl (hall c hbc hcb')
      · exact .inr hstuck
  · show s.d.goodBefore first (b' + 1) + blockCount s.d.eraseSize (State.pending _) = k
    rw [hpending, ← h.count, blockCount_of_ne_nil s.d.eraseSize_pos hne, goodBefore_succ (by omega), if_pos hbad, goodBefore_skip hfirst hle hall]
    omega

theorem Sync.moved (h : Sync call first k b s) (hne : s.pending ≠ []) {d : Device}
    {next : List Device} (hnext : s.next = d :: next) (hsize : d.eraseSize = s.d.eraseSize)
    (hgood : ∀ c, first ≤ c → c < b → s.d.bad c = false)
    (hagree : Agree first s.next (k - (b - first))) :
    Sync call first (k - (b - first)) first (s.moved call d next) := by
  obtain ⟨hbuf, himage, hno⟩ := h.load_eq
  rw [if_neg hne] at hbuf
  have hpending : (s.moved call d next).pending =
      padded s.d.eraseSize s.pending ++ s.pending.drop s.d.eraseSize := by
    show s.load.buf ++ imageOf s.load.reads = _
    rw [hbuf, himage]
  refine ⟨h.noErase, ?_, hno, ?_, h.offset, le_rfl, le_max_left _ _, ?_, ?_, rfl, fun _ => rfl, ?_, ?_, ?_⟩
  · show call.partOffset = first * d.eraseSize
    rw [hsize, h.partOffset]
  · show s.load.buf.length ≤ d.eraseSize
    rw [hbuf, length_padded, hsize]
  · show 0 = (first - first) * d.eraseSize
    rw [Nat.sub_self, Nat.zero_mul]
  · show call.partOffset = first * d.eraseSize
    rw [hsize, h.partOffset]
  · intro c hc hlt
    omega
  · -- padding takes no further block
    show d.goodBefore first first + blockCount d.eraseSize (s.moved call d next).pending = _
    have hcount := h.count
    have hne' : padded s.d.eraseSize s.pending ++ s.pending.drop s.d.eraseSize ≠ [] := by
      intro hnil
      have hzero := congrArg List.length (List.append_eq_nil_iff.mp hnil).1
      rw [length_padded] at hzero
      exact absurd hzero s.d.eraseSize_pos.ne'
    rw [goodBefore_of_good h.le hgood] at hcount
    rw [goodBefore_first, hsize, hpending, blockCount_of_ne_nil s.d.eraseSize_pos hne',
      padded_append.2, ← blockCount_of_ne_nil s.d.eraseSize_pos hne]
    omega
  · rw [hnext] at hagree
    exact hagree

/-- A round of the loop writes the next block of the image, or moves on to the next device. -/
theorem Sync.writeLoop_succ (h : Sync call first k b s) (hne : s.pending ≠ []) {n : ℕ}
    {out : List Event} (hrun : writeLoop call (n + 1) s = some out) :
    ∃ b', b ≤ b' ∧ (∀ c, b ≤ c → c < b' → s.d.bad c = true) ∧
      ((b' < s.d.blocks ∧ s.d.bad b' = false ∧ s.d.stuck b' = false ∧
          Sync call first k (b' + 1) (s.wrote first b' (s.cur.skip + (b' - b) * s.d.eraseSize)) ∧
          writeLoop call n (s.wrote first b' (s.cur.skip + (b' - b) * s.d.eraseSize)) = some out) ∨
        (s.d.EndsAt b' ∧ ∃ d next, s.next = d :: next ∧ d.eraseSize = s.d.eraseSize ∧
          Sync call first (k - (b' - first)) first (s.moved call d next) ∧
          writeLoop call n (s.moved call d next) = some out)) := by
  obtain ⟨hbuf, himage, hno⟩ := h.load_eq
  rw [if_neg hne] at hbuf
  have hlen : s.load.buf.length = s.d.eraseSize := by rw [hbuf, length_padded]
  have hfull : s.load.buf ≠ [] := by
    intro hnil
    rw [hnil] at hlen
    exact absurd hlen.symm s.d.eraseSize_pos.ne'
  have hcur : s.load.cur =
      ⟨s.cur.w, (b - first) * s.d.eraseSize, s.cur.skip, b * s.d.eraseSize⟩ := by
    rw [← h.e, ← h.pos, State.load_cur]
  rw [writeLoop, if_neg hfull, h.noErase, if_neg (by decide), h.partOffset, hlen, hcur] at hrun
  simp only [State.load_dev, State.load_d, State.load_next, State.load_offset, State.load_events,
    h.offset] at hrun
  have hcases := @eraseAhead_cases s.d first b s.dev s.cur.w s.cur.skip (s.d.blocks + 1) s.events h.le
    h.le_blocks (by rw [h.w, h.e]) fun b' hb' hle' hall => (h.agree b' (h.reached hne hb' hle' hall)).1
  rcases hcases with hexit | ⟨b', hb', hle', hall, ⟨hlt, hbad, hstuck, hready⟩ | ⟨hends, hrefused⟩⟩
  · rw [hexit] at hrun
    exact absurd hrun (by simp)
  · rw [hready] at hrun
    obtain ⟨s', hs', hrun⟩ := Option.bind_eq_some_iff.mp hrun
    rw [State.write] at hs'
    split_ifs at hs' with hroom
    have hwrote : s.wrote first b' (s.cur.skip + (b' - b) * s.d.eraseSize) = s' := by
      rw [← Option.some.inj hs', State.wrote, slice_full, hlen, hbuf, Nat.succ_mul]
      rfl
    rw [← hwrote] at hrun
    exact ⟨b', hb', hall, .inl ⟨hlt, hbad, hstuck, h.wrote hne hb' hlt hall hbad hstuck, hrun⟩⟩
  · rw [hrefused] at hrun
    obtain ⟨s', hs', hrest⟩ := Option.bind_eq_some_iff.mp hrun
    rw [State.resume] at hs'
    cases hnext : s.next with
    | nil =>
      rw [hnext] at hs'
      exact absurd hs' (by simp)
    | cons d next =>
      obtain ⟨hgood, hsize, hagree⟩ := (h.agree b' (h.reached hne hb' hle' hall)).2 hends d
        (by rw [hnext]; rfl)
      -- no bad block was skipped, so nothing is left to write here
      obtain rfl : b = b' := by
        by_contra hneq
        have hfalse := hgood b h.le (by omega)
        rw [hall b le_rfl (by omega)] at hfalse
        exact absurd hfalse (by decide)
      have hskip := h.skip hgood
      have hgap : (b - first) * s.d.eraseSize - s.cur.w = 0 := by
        rw [← h.e, ← h.w, hskip]
        omega
      have hmoved : s.moved call d next = s' := by
        rw [hnext] at hs'
        rw [← Option.some.inj hs', State.moved]
        simp only [hgap, hskip, Nat.sub_self, Nat.zero_mul, Nat.add_zero, lt_irrefl, if_false]
        rw [← h.offset]
        rfl
      rw [← hmoved] at hrest
      exact ⟨b, hb', hall, .inr ⟨hends, d, next, rfl, hsize,
        h.moved hne hnext hsize hgood hagree, hrest⟩⟩

/-- A run puts the blocks of the image into the places, in order. -/
theorem writeLoop_eq {n : ℕ} {out : List Event} (h : Sync call first k b s)
    (hrun : writeLoop call n s = some out) :
    blockCount s.d.eraseSize s.pending ≤ (s.places first b).length ∧
      out = s.events ++ plan s.d.eraseSize ((s.places first b).zip
        (blocksOf s.d.eraseSize (blockCount s.d.eraseSize s.pending) s.pending)) := by
  induction n generalizing s b k with
  | zero => exact absurd hrun (by simp [writeLoop])
  | succ n ih =>
    obtain ⟨hbuf, himage, hno⟩ := h.load_eq
    by_cases hne : s.pending = []
    · rw [if_pos hne] at hbuf
      rw [writeLoop, if_pos hbuf] at hrun
      obtain rfl : s.events = out := Option.some.inj hrun
      rw [hne, blockCount_nil s.d.eraseSize_pos]
      simp [blocksOf, plan]
    · rw [if_neg hne] at hbuf
      have hcount := blockCount_of_ne_nil s.d.eraseSize_pos hne
      obtain ⟨b', hb', hall, ⟨hlt, hbad, hstuck, hsync, hrun⟩ |
        ⟨hends, d, next, hnext, hsize, hsync, hrun⟩⟩ := h.writeLoop_succ hne hrun
      · obtain ⟨hle, hout⟩ := ih hsync hrun
        have hpending : (s.wrote first b' (s.cur.skip + (b' - b) * s.d.eraseSize)).pending =
            s.pending.drop s.d.eraseSize := himage
        have hplaces : s.places first b = (s.dev, b') ::
            (s.wrote first b' (s.cur.skip + (b' - b) * s.d.eraseSize)).places first (b' + 1) := by
          rw [State.places, usableFrom_skip hb' hall, usableFrom_of_good hlt hbad hstuck]
          rfl
        rw [hpending] at hle hout
        rw [hplaces, hcount, List.length_cons, blocksOf, List.zip_cons_cons]
        refine ⟨Nat.succ_le_succ hle, hout.trans ?_⟩
        simp [State.wrote, plan]
      · -- the device has no place left
        obtain ⟨hle, hout⟩ := ih hsync hrun
        have hplaces : s.places first b = (s.moved call d next).places first first := by
          have hnone : s.d.usableFrom b = [] := by
            rw [usableFrom_skip hb' hall]
            rcases hends with hend | ⟨hbad, hstuck⟩
            · exact usableFrom_of_le hend
            · exact usableFrom_of_stuck hbad hstuck
          rw [State.places, hnone, hnext]
          rfl
        have hpending : (s.moved call d next).pending =
            padded s.d.eraseSize s.pending ++ s.pending.drop s.d.eraseSize := by
          show s.load.buf ++ imageOf s.load.reads = _
          rw [hbuf, himage]
        have hne' : padded s.d.eraseSize s.pending ++ s.pending.drop s.d.eraseSize ≠ [] := by
          rw [← hbuf]
          intro hnil
          have hzero := congrArg List.length (List.append_eq_nil_iff.mp hnil).1
          rw [hbuf, length_padded] at hzero
          exact absurd hzero s.d.eraseSize_pos.ne'
        have hsize' : (s.moved call d next).d.eraseSize = s.d.eraseSize := hsize
        rw [hsize', hpending, blockCount_of_ne_nil s.d.eraseSize_pos hne', padded_append.2, ← hcount,
          ← hplaces] at hle hout
        refine ⟨hle, ?_⟩
        rw [hcount, blocksOf, padded_append.1, padded_append.2] at hout
        rw [hcount, blocksOf]
        exact hout

end Runs

end NeonWrt.Mtd
