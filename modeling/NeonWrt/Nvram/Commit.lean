import NeonWrt.Nvram.Variables

/-!
# What a commit writes

A commit writes the variables chain by chain, and leaves out the rest of a chain
from the first variable without room on. Behind the text come a NUL and zeros up to
a whole word. On an address in the upper half of the address space the remainder of
that word is computed as a negative number, so that up to seven zeros are written,
and they may end outside the partition.
-/

namespace NeonWrt.Nvram

open Lib

/-- The strings of some variables. -/
def texts (ts : List Tuple) : Bytes := ts.flatMap Tuple.text

/-- The variables of a chain that are written into some room: all up to the first one
that does not fit. -/
def keep : ℕ → List Tuple → List Tuple
  | _, [] => []
  | room, t :: ts =>
    if room < t.text.length then [] else t :: keep (room - t.text.length) ts

/-- The variables of all the chains that are written. -/
def keepAll : ℕ → List (List Tuple) → List Tuple
  | _, [] => []
  | room, c :: cs => keep room c ++ keepAll (room - (texts (keep room c)).length) cs

theorem length_text (t : Tuple) :
    t.text.length = t.name.bytes.length + t.value.bytes.length + 2 := by
  simp only [Tuple.text, List.length_append, List.length_singleton]
  omega

@[simp] theorem texts_nil : texts [] = [] := rfl

theorem texts_cons (t : Tuple) (ts : List Tuple) : texts (t :: ts) = t.text ++ texts ts := rfl

theorem texts_append (ts us : List Tuple) : texts (ts ++ us) = texts ts ++ texts us :=
  List.flatMap_append

theorem length_texts_keep (room : ℕ) (ts : List Tuple) : (texts (keep room ts)).length ≤ room := by
  induction ts generalizing room with
  | nil => exact Nat.zero_le _
  | cons t ts ih =>
    rw [keep]
    split_ifs with hroom
    · exact Nat.zero_le _
    · have hrest := ih (room - t.text.length)
      rw [texts_cons, List.length_append]
      omega

theorem length_texts_keepAll (room : ℕ) (cs : List (List Tuple)) :
    (texts (keepAll room cs)).length ≤ room := by
  induction cs generalizing room with
  | nil => exact Nat.zero_le _
  | cons c cs ih =>
    have hfirst := length_texts_keep room c
    have hrest := ih (room - (texts (keep room c)).length)
    rw [keepAll, texts_append, List.length_append]
    omega

theorem keep_sublist (room : ℕ) (ts : List Tuple) : (keep room ts).Sublist ts := by
  induction ts generalizing room with
  | nil => exact .refl _
  | cons t ts ih =>
    rw [keep]
    split_ifs
    · exact List.nil_sublist _
    · exact (ih _).cons_cons t

theorem keepAll_sublist (room : ℕ) (cs : List (List Tuple)) : (keepAll room cs).Sublist cs.flatten := by
  induction cs generalizing room with
  | nil => exact .refl _
  | cons c cs ih => exact (keep_sublist room c).append (ih _)

theorem Mem.write_eq {bytes a x b data : Bytes} {pos : ℕ} (hbytes : bytes = a ++ (x ++ b))
    (hpos : pos = a.length) (hlen : data.length = x.length) :
    Mem.write ⟨bytes, false⟩ pos data = ⟨a ++ (data ++ b), false⟩ := by
  subst hbytes hpos
  have hroom : data.length ≤ (a ++ (x ++ b)).length - a.length := by
    simp only [List.length_append]
    omega
  rw [Mem.write, List.take_of_length_le hroom, overwrite_append hlen]
  have hinside : ¬ (a ++ (x ++ b)).length < a.length + data.length := by
    simp only [List.length_append]
    omega
  dsimp only
  rw [decide_eq_false hinside, Bool.and_false, Bool.or_false]

theorem Mem.outside_write (m : Mem) (pos : ℕ) (data : Bytes) (h : m.outside = true) :
    (m.write pos data).outside = true := by
  simp [Mem.write, h]

/-- A chain is written behind what is there. -/
theorem writeChain_eq (stop : ℕ) (c : List Tuple) {front : Bytes} {n : ℕ}
    (hstop : stop ≤ front.length + n) :
    writeChain stop c (⟨front ++ List.replicate n 0xFF, false⟩, front.length) =
      (⟨front ++ texts (keep (stop - front.length) c) ++
          List.replicate (n - (texts (keep (stop - front.length) c)).length) 0xFF, false⟩,
        front.length + (texts (keep (stop - front.length) c)).length) := by
  induction c generalizing front n with
  | nil => simp [writeChain, keep]
  | cons t ts ih =>
    have hlen := length_text t
    rw [writeChain, keep]
    -- the chain ends at the first variable that does not fit
    by_cases hroom : stop - front.length < t.text.length
    · rw [if_pos (by omega), if_pos hroom]
      simp
    · rw [if_neg (by omega), if_neg hroom]
      -- the text replaces as many of the ones behind the front
      have hsplit : List.replicate n (0xFF : UInt8) =
          List.replicate t.text.length 0xFF ++ List.replicate (n - t.text.length) 0xFF := by
        rw [List.replicate_append_replicate]
        congr 1
        omega
      rw [Mem.write_eq (x := List.replicate t.text.length 0xFF)
        (b := List.replicate (n - t.text.length) 0xFF) (by rw [hsplit]) rfl (by simp)]
      have hnext := @ih (front ++ t.text) (n - t.text.length) (by rw [List.length_append]; omega)
      rw [List.length_append] at hnext
      rw [← List.append_assoc, hnext, texts_cons, List.length_append, ← Nat.sub_sub, ← Nat.sub_sub,
        Nat.add_assoc, List.append_assoc front]

/-- All the chains are written behind what is there. -/
theorem writeAll_eq (stop : ℕ) (cs : List (List Tuple)) {front : Bytes} {n : ℕ}
    (hstop : stop ≤ front.length + n) :
    cs.foldl (fun s c => writeChain stop c s) (⟨front ++ List.replicate n 0xFF, false⟩, front.length) =
      (⟨front ++ texts (keepAll (stop - front.length) cs) ++
          List.replicate (n - (texts (keepAll (stop - front.length) cs)).length) 0xFF, false⟩,
        front.length + (texts (keepAll (stop - front.length) cs)).length) := by
  induction cs generalizing front n with
  | nil => simp [keepAll]
  | cons c cs ih =>
    have hfirst := length_texts_keep (stop - front.length) c
    rw [List.foldl_cons, writeChain_eq stop c hstop, keepAll, texts_append]
    generalize texts (keep (stop - front.length) c) = written at *
    -- the rest of the chains go behind what the first one has written
    have hnext := @ih (front ++ written) (n - written.length) (by rw [List.length_append]; omega)
    rw [List.length_append] at hnext
    rw [hnext, List.length_append, ← Nat.sub_sub, ← Nat.sub_sub, Nat.add_assoc, List.append_assoc front]

/-- A header. -/
def header (magic len crcVerInit configRefresh configNcdl : ℕ) : Bytes :=
  u32le magic ++ (u32le len ++ (u32le crcVerInit ++ (u32le configRefresh ++ u32le configNcdl)))

/-- The variables that a commit writes. -/
def kept (h : Handle) : List Tuple := keepAll (h.space - 22) ((List.range 257).map h.nvramHash)

/-- The zeros behind the end of the text. -/
def padLength (h : Handle) : ℕ := padding (h.addr + h.offset + (texts (kept h)).length + 21)

/-- The length of the new header. -/
def newLength (h : Handle) : ℕ := roundUp ((texts (kept h)).length + 22)

/-- The data area after a commit. -/
def newData (h : Handle) : Bytes :=
  texts (kept h) ++ (0 :: List.replicate (padLength h) 0 ++
    List.replicate (h.space - 21 - (texts (kept h)).length - padLength h) 0xFF)

/-- The CRC after a commit. -/
def newCrc (h : Handle) : UInt8 :=
  hndcrc8 ((newData h).take (newLength h - 20))
    (hndcrc8 ((header 0 0 (headerWords h).1 (headerWords h).2.1 (headerWords h).2.2).drop 9) 0xff)

theorem length_header (a b c d e : ℕ) : (header a b c d e).length = 20 := rfl

theorem exists_append {b : Bytes} {n : ℕ} (h : n ≤ b.length) :
    ∃ x y, b = x ++ y ∧ x.length = n :=
  ⟨b.take n, b.drop n, (List.take_append_drop n b).symm, List.length_take_of_le h⟩

/-- The header is written but for its length, and the data area is all ones. -/
theorem writeHeader_eq (h : Handle) {front : Bytes} (hfront : front = h.mmap.take h.offset)
    (hspace : h.offset + 20 ≤ h.mmap.length) :
    ∃ len, len.length = 4 ∧ writeHeader h =
      ⟨front ++ (u32le nvramMagic ++ (len ++ (u32le (headerWords h).1 ++
        (u32le (headerWords h).2.1 ++ u32le (headerWords h).2.2)))) ++
          List.replicate (h.space - 20) 0xFF, false⟩ := by
  have hlen : front.length = h.offset := by
    rw [hfront, List.length_take_of_le (by omega)]
  obtain ⟨w₀, r₀, h₀, hw₀⟩ := exists_append (b := h.mmap.drop h.offset) (n := 4)
    (by rw [List.length_drop]; omega)
  have hr₀ : r₀.length + 4 = h.space := by
    rw [Handle.space, ← List.length_drop, h₀, List.length_append, hw₀, Nat.add_comm]
  have hspace' : 20 ≤ h.space := by
    rw [Handle.space]
    omega
  -- cut the mapping behind the front into the five words and the data area
  obtain ⟨w₁, r₁, rfl, hw₁⟩ := exists_append (b := r₀) (n := 4) (by omega)
  rw [List.length_append] at hr₀
  obtain ⟨w₂, r₂, rfl, hw₂⟩ := exists_append (b := r₁) (n := 4) (by omega)
  rw [List.length_append] at hr₀
  obtain ⟨w₃, r₃, rfl, hw₃⟩ := exists_append (b := r₂) (n := 4) (by omega)
  rw [List.length_append] at hr₀
  obtain ⟨w₄, rest, rfl, hw₄⟩ := exists_append (b := r₃) (n := 4) (by omega)
  rw [List.length_append] at hr₀
  have hmmap : h.mmap = front ++ (w₀ ++ (w₁ ++ (w₂ ++ (w₃ ++ (w₄ ++ rest))))) := by
    rw [← h₀, hfront, List.take_append_drop]
  -- the second word is the only one that stays
  refine ⟨w₁, hw₁, ?_⟩
  unfold writeHeader
  obtain ⟨crcVerInit, configRefresh, configNcdl⟩ := headerWords h
  dsimp only
  generalize hmagic : u32le nvramMagic = magic
  generalize hinit : u32le crcVerInit = init
  generalize hconfig : u32le configRefresh = config
  generalize hncdl : u32le configNcdl = ncdl
  have hm : magic.length = 4 := hmagic ▸ rfl
  have hi : init.length = 4 := hinit ▸ rfl
  have hc : config.length = 4 := hconfig ▸ rfl
  have hn : ncdl.length = 4 := hncdl ▸ rfl
  -- the four words that are written, and the ones over the data area
  rw [Mem.write_eq (a := front) (x := w₀) (b := w₁ ++ (w₂ ++ (w₃ ++ (w₄ ++ rest)))) hmmap
      hlen.symm (by omega),
    Mem.write_eq (a := front ++ magic ++ w₁) (x := w₂) (b := w₃ ++ (w₄ ++ rest))
      (by simp only [List.append_assoc]) (by simp only [List.length_append]; omega) (by omega),
    Mem.write_eq (a := front ++ magic ++ w₁ ++ init) (x := w₃) (b := w₄ ++ rest)
      (by simp only [List.append_assoc]) (by simp only [List.length_append]; omega) (by omega),
    Mem.write_eq (a := front ++ magic ++ w₁ ++ init ++ config) (x := w₄) (b := rest)
      (by simp only [List.append_assoc]) (by simp only [List.length_append]; omega) (by omega),
    Mem.write_eq (a := front ++ magic ++ w₁ ++ init ++ config ++ ncdl) (x := rest) (b := [])
      (by simp only [List.append_assoc, List.append_nil])
      (by simp only [List.length_append, headerSize]; omega)
      (by rw [List.length_replicate, headerSize]; omega)]
  simp only [List.append_assoc, List.append_nil, headerSize]

/-- The chains are written behind the header. -/
theorem writeTuples_eq (h : Handle) (hspace : h.offset + 21 ≤ h.mmap.length) :
    ∃ len, len.length = 4 ∧
      (List.range 257).foldl (fun s i => writeChain (h.offset + h.space - 2) (h.nvramHash i) s)
        (writeHeader h, h.offset + headerSize) =
      (⟨h.mmap.take h.offset ++ (u32le nvramMagic ++ (len ++ (u32le (headerWords h).1 ++
        (u32le (headerWords h).2.1 ++ u32le (headerWords h).2.2)))) ++ texts (kept h) ++
          List.replicate (h.space - 20 - (texts (kept h)).length) 0xFF, false⟩,
        h.offset + 20 + (texts (kept h)).length) := by
  obtain ⟨len, hlen, heq⟩ := writeHeader_eq h rfl (by omega)
  refine ⟨len, hlen, ?_⟩
  have hfront : (h.mmap.take h.offset).length = h.offset := List.length_take_of_le (by omega)
  generalize hpart : h.mmap.take h.offset ++ (u32le nvramMagic ++ (len ++ (u32le (headerWords h).1 ++
        (u32le (headerWords h).2.1 ++ u32le (headerWords h).2.2)))) = part at *
  have hpartlen : part.length = h.offset + 20 := by
    rw [← hpart]
    simp only [List.length_append, hfront, hlen, length_u32le]
  have hspace' : h.space = h.mmap.length - h.offset := rfl
  -- the text starts behind the header and stops two bytes before the end
  have hall := @writeAll_eq (h.offset + h.space - 2) ((List.range 257).map h.nvramHash) part
    (h.space - 20) (by omega)
  rw [List.foldl_map, hpartlen, show h.offset + h.space - 2 - (h.offset + 20) = h.space - 22 by omega]
    at hall
  rw [heq]
  exact hall

theorem length_texts_kept (h : Handle) : (texts (kept h)).length ≤ h.space - 22 :=
  length_texts_keepAll _ _

theorem writeEnd_eq (h : Handle) {front len text data : Bytes} {pad n : ℕ} {crc : UInt8}
    (hfront : front.length = h.offset) (hlen : len.length = 4)
    (hpad : pad = padding (h.addr + h.offset + text.length + 21)) (hn : 1 + pad ≤ n)
    (hdata : data = text ++ (0 :: List.replicate pad 0 ++ List.replicate (n - 1 - pad) 0xFF))
    (hcrc : crc = hndcrc8 (data.take (roundUp (text.length + 22) - 20))
      (hndcrc8 ((header 0 0 (headerWords h).1 (headerWords h).2.1 (headerWords h).2.2).drop 9) 0xff)) :
    writeEnd h ⟨front ++ (u32le nvramMagic ++ (len ++ (u32le (headerWords h).1 ++
        (u32le (headerWords h).2.1 ++ u32le (headerWords h).2.2)))) ++ text ++
          List.replicate n 0xFF, false⟩ (h.offset + 20 + text.length) =
      ⟨front ++ (header nvramMagic (roundUp (text.length + 22)) ((headerWords h).1 + crc.toNat)
        (headerWords h).2.1 (headerWords h).2.2 ++ data), false⟩ := by
  rw [writeEnd]
  generalize headerWords h = words at *
  obtain ⟨crcVerInit, configRefresh, configNcdl⟩ := words
  dsimp only at hcrc ⊢
  rw [header] at hcrc ⊢
  -- the address and the length in terms of the text
  have haddr : h.addr + (h.offset + 20 + text.length) + 1 = h.addr + h.offset + text.length + 21 := by
    omega
  have hlength : h.offset + 20 + text.length + 2 - h.offset = text.length + 22 := by omega
  rw [haddr, hlength, ← hpad]
  have hones : List.replicate n (0xFF : UInt8) =
      [0xFF] ++ (List.replicate pad 0xFF ++ List.replicate (n - 1 - pad) 0xFF) := by
    rw [List.replicate_append_replicate, List.singleton_append, ← List.replicate_succ]
    congr 1
    omega
  have hmagic : (u32le nvramMagic).length = 4 := rfl
  have hinit : (u32le crcVerInit).length = 4 := rfl
  have hconfig : (u32le configRefresh).length = 4 := rfl
  have hncdl : (u32le configNcdl).length = 4 := rfl
  have hnew : (u32le (roundUp (text.length + 22))).length = 4 := rfl
  generalize u32le (roundUp (text.length + 22)) = newLen at *
  generalize u32le nvramMagic = magic at *
  generalize u32le configRefresh = config at *
  generalize u32le configNcdl = ncdl at *
  -- the NUL, the zeros that pad the text, and the length in the header
  rw [hones,
    Mem.write_eq (a := front ++ (magic ++ (len ++ (u32le crcVerInit ++ (config ++ ncdl)))) ++ text)
      (x := [0xFF]) (b := List.replicate pad 0xFF ++ List.replicate (n - 1 - pad) 0xFF)
      (by simp only [List.append_assoc])
      (by simp only [List.length_append]; omega) (by simp only [List.length_singleton]),
    Mem.write_eq (a := front ++ (magic ++ (len ++ (u32le crcVerInit ++ (config ++ ncdl)))) ++ text ++ [0])
      (x := List.replicate pad 0xFF) (b := List.replicate (n - 1 - pad) 0xFF)
      (by simp only [List.append_assoc])
      (by simp only [List.length_append, List.length_singleton]; omega)
      (by simp only [List.length_replicate]),
    Mem.write_eq (a := front ++ magic) (x := len) (b := u32le crcVerInit ++ (config ++ (ncdl ++ data)))
      (by simp only [hdata, List.append_assoc, List.cons_append, List.nil_append])
      (by simp only [List.length_append]; omega) (by rw [hnew, hlen])]
  dsimp only
  have hsplit : front ++ magic ++ (newLen ++ (u32le crcVerInit ++ (config ++ (ncdl ++ data)))) =
      (front ++ magic ++ newLen ++ u32le crcVerInit ++ config ++ ncdl) ++ data := by
    simp only [List.append_assoc]
  have hdrop : (front ++ magic ++ (newLen ++ (u32le crcVerInit ++ (config ++ (ncdl ++ data))))).drop
      (h.offset + headerSize) = data := by
    rw [hsplit, List.drop_left' (by simp only [List.length_append, headerSize]; omega)]
  -- the CRC is taken over a header whose first two words are zero
  have htmp : u32le 0 ++ u32le 0 ++ u32le crcVerInit ++ config ++ ncdl =
      u32le 0 ++ (u32le 0 ++ (u32le crcVerInit ++ (config ++ ncdl))) := by
    simp only [List.append_assoc]
  rw [hdrop, htmp, headerSize, ← hcrc,
    Mem.write_eq (a := front ++ magic ++ newLen) (x := u32le crcVerInit) (b := config ++ (ncdl ++ data))
      (by simp only [List.append_assoc]) (by simp only [List.length_append]; omega)
      (by rw [length_u32le, length_u32le])]
  simp only [header, List.append_assoc]

/-- A commit whose zeros stay inside the partition writes a header and a data area. -/
theorem regenerate_eq (h : Handle) (hspace : h.offset + 21 ≤ h.mmap.length)
    (hpad : 21 + (texts (kept h)).length + padLength h ≤ h.space) :
    regenerate h = ⟨h.mmap.take h.offset ++ (header nvramMagic (newLength h)
      ((headerWords h).1 + (newCrc h).toNat) (headerWords h).2.1 (headerWords h).2.2 ++ newData h),
        false⟩ := by
  obtain ⟨len, hlen, heq⟩ := writeTuples_eq h hspace
  have hdata : newData h = texts (kept h) ++ (0 :: List.replicate (padLength h) 0 ++
      List.replicate (h.space - 20 - (texts (kept h)).length - 1 - padLength h) 0xFF) := by
    rw [newData, show h.space - 20 - (texts (kept h)).length - 1 - padLength h =
      h.space - 21 - (texts (kept h)).length - padLength h by omega]
  rw [regenerate, heq]
  exact writeEnd_eq h (List.length_take_of_le (by omega)) hlen (padLength.eq_1 h) (by omega) hdata
    (newCrc.eq_1 h)

/-- Zeros that do not fit are written outside the partition. -/
theorem regenerate_outside (h : Handle) (hspace : h.offset + 21 ≤ h.mmap.length)
    (hpad : h.space < 21 + (texts (kept h)).length + padLength h) :
    (regenerate h).outside = true := by
  obtain ⟨len, hlen, heq⟩ := writeTuples_eq h hspace
  have hfront : (h.mmap.take h.offset).length = h.offset := List.length_take_of_le (by omega)
  have hkept := length_texts_kept h
  have hsize : h.space = h.mmap.length - h.offset := rfl
  rw [regenerate, heq]
  dsimp only
  rw [writeEnd]
  dsimp only
  -- the last two writes do not take back what the zeros did
  refine Mem.outside_write _ _ _ (Mem.outside_write _ _ _ ?_)
  have haddr : h.addr + (h.offset + 20 + (texts (kept h)).length) + 1 =
      h.addr + h.offset + (texts (kept h)).length + 21 := by omega
  rw [haddr, show padding (h.addr + h.offset + (texts (kept h)).length + 21) = padLength h from rfl]
  have hones : List.replicate (h.space - 20 - (texts (kept h)).length) (0xFF : UInt8) =
      [0xFF] ++ List.replicate (h.space - 21 - (texts (kept h)).length) 0xFF := by
    rw [List.singleton_append, ← List.replicate_succ]
    congr 1
    omega
  rw [hones, Mem.write_eq (x := [0xFF]) (by rfl) ?_ (by simp only [List.length_singleton])]
  · have hne : List.replicate (padLength h) (0 : UInt8) ≠ [] := by
      rw [ne_eq, List.replicate_eq_nil_iff]
      omega
    simp only [Mem.write, hne, ne_eq, not_false_eq_true, decide_true, Bool.true_and, Bool.false_or,
      decide_eq_true_eq, List.length_append, List.length_replicate, length_u32le, hfront, hlen,
      List.length_singleton]
    omega
  · simp only [List.length_append, length_u32le, hfront, hlen]

end NeonWrt.Nvram
