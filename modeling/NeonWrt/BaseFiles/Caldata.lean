import NeonWrt.BaseFiles.Ipv4
import NeonWrt.Lib.Hex
import NeonWrt.Lib.Shell
import NeonWrt.Lib.XorSum

/-!
# Patches of calibration data

`caldata_patch_data` writes bytes into an image that carries a checksum, the
exclusive or of its 16-bit words. The checksum is not computed anew: the old and the
new data, as texts of hexadecimal digits, are put into the checksum word that is
there.
-/

namespace NeonWrt.BaseFiles.Caldata

open Lib Shell

/-- What `0x` and a text of digits are in arithmetic. -/
def hexNum (t : Bytes) : Num := BitVec.ofNat 64 (min (numeral 16 t) (2 ^ 64 - 1))

/-- `xor`, up to an empty argument. -/
def xor (args : List Bytes) : Bytes :=
  let first := args.headD []
  let ret := (args.tail.takeWhile (· ≠ [])).foldl (fun ret val => ret ^^^ hexNum val) (hexNum first)
  zeroPad first.length (hex ret.toNat)

/-- `data_2bin`: each two digits are an escape sequence. -/
def data2bin (data : Bytes) : Bytes := (pieces 2 data).map fun d => UInt8.ofNat (numeral 16 d)

/-- `data_2xor_val`: blanks between the words. -/
def data2xorVal (data : Bytes) : Bytes :=
  let xorData := (pieces 4 data).flatMap fun d => d ++ [32]
  join 32 (fields xorData.dropLast)

/-- `dd conv=notrunc bs=1`: zeros fill what is skipped behind the end of the target. -/
def dd (target : Bytes) (seek count : ℕ) (input : Bytes) : Bytes :=
  overwrite (target ++ List.replicate (seek - target.length) 0) seek (input.take count)

/-- The checksum, as a text, after the data was replaced. -/
def newChksum (fwChksum fwData data : Bytes) : Bytes :=
  xor (fields fwChksum ++ fields (data2xorVal fwData) ++ fields (data2xorVal data))

/-- `caldata_patch_data`: the target afterwards. The offsets are those that the variables hold. -/
def caldataPatchData (data : Bytes) (dataOffset chksumOffset : Option ℕ) (target : Bytes) : Bytes :=
  let dataCount := data.length / 2
  match dataOffset with
  | none => target
  | some dataOffset =>
    if data = [] then target
    else
      let fwData := hexdump ((target.drop dataOffset).take dataCount)
      if data = fwData then target
      else
        let target :=
          match chksumOffset with
          | none => target
          | some chksumOffset =>
            let fwChksum := hexdump ((target.drop chksumOffset).take 2)
            dd target chksumOffset 2 (data2bin (newChksum fwChksum fwData data))
        dd target dataOffset dataCount (data2bin data)

/-- The data is in the image, its checksum is the one before, and only the data and the checksum
word have changed. -/
structure Patched (image data : Bytes) (dataOffset chksumOffset : ℕ) (image' : Bytes) : Prop where
  length_eq : image'.length = image.length
  hasAt : HasAt image' dataOffset data
  xorSum_eq : xorSum image' = xorSum image
  frame : ∀ i, (i < dataOffset ∨ dataOffset + data.length ≤ i) →
    (i < chksumOffset ∨ chksumOffset + 2 ≤ i) → image'[i]? = image[i]?

section Words

variable {t : Bytes}

/-- A text of hexadecimal digits. -/
def Digits (t : Bytes) : Prop := ∀ c ∈ t, digitVal c < 16

theorem digits_hexdump (data : Bytes) : Digits (hexdump data) := fun _ => digitVal_of_mem_hexdump

theorem isIfs_of_digitVal {c : UInt8} (h : digitVal c < 16) : isIfs c = false := by
  have hspace := isspace_eq_false_of_digitVal (h.trans (by decide : 16 < 36))
  by_contra hifs
  rw [Bool.not_eq_false, isIfs, Bool.or_eq_true, Bool.or_eq_true] at hifs
  rcases hifs with (hifs | hifs) | hifs
  all_goals
    rw [beq_iff_eq.mp hifs] at hspace
    exact absurd hspace (by decide)

theorem data2bin_eq (h : t.length % 2 = 0) : data2bin t = unhex t := by
  fun_induction unhex t with
  | case1 x y t ih =>
    have hpiece : numeral 16 [x, y] = 16 * digitVal x + digitVal y := by
      simp only [numeral, List.foldl_cons, List.foldl_nil]
      omega
    have hcut : pieces 2 (x :: y :: t) = [x, y] :: pieces 2 t :=
      pieces_append (a := [x, y]) t (by decide) rfl
    rw [List.length_cons, List.length_cons] at h
    rw [data2bin, hcut, List.map_cons, ← data2bin, ih (by omega), hpiece]
  | case2 t ht =>
    cases t with
    | nil => rfl
    | cons x t =>
      cases t with
      | nil => simp at h
      | cons y t => exact absurd rfl (ht x y t)

/-- A blank behind each word is a blank between them and one at the end. -/
theorem flatMap_blank {ws : List Bytes} (h : ws ≠ []) :
    (ws.flatMap fun d => d ++ [32]) = join 32 ws ++ [32] := by
  induction ws with
  | nil => exact absurd rfl h
  | cons w ws ih =>
    cases ws with
    | nil => simp [join]
    | cons v vs =>
      rw [List.flatMap_cons, ih (List.cons_ne_nil v vs)]
      simp [join, List.intercalate]

theorem dropLast_flatMap (ws : List Bytes) :
    (ws.flatMap fun d => d ++ [32]).dropLast = join 32 ws := by
  cases ws with
  | nil => rfl
  | cons w ws => rw [flatMap_blank (List.cons_ne_nil w ws), List.dropLast_concat]

theorem pieces_spec (t : Bytes) : ∀ w ∈ pieces 4 t, w ≠ [] ∧ ∀ c ∈ w, c ∈ t := by
  intro w hw
  obtain ⟨i, hi, rfl⟩ := List.mem_map.mp hw
  rw [List.mem_range] at hi
  refine ⟨?_, fun c hc => List.mem_of_mem_drop (List.mem_of_mem_take hc)⟩
  rw [← List.length_pos_iff, List.length_take, List.length_drop]
  omega

theorem fields_data2xorVal (h : Digits t) : fields (data2xorVal t) = pieces 4 t := by
  have hifs : ∀ w ∈ pieces 4 t, ∀ c ∈ w, isIfs c = false := fun w hw c hc =>
    isIfs_of_digitVal (h c ((pieces_spec t w hw).2 c hc))
  have hne : (pieces 4 t).filter (· ≠ []) = pieces 4 t :=
    List.filter_eq_self.mpr fun w hw => decide_eq_true (pieces_spec t w hw).1
  simp only [data2xorVal]
  rw [dropLast_flatMap, fields_join hifs, hne, fields_join hifs, hne]

theorem fields_digits (h : Digits t) (hne : t ≠ []) : fields t = [t] := by
  have hjoin : join 32 [t] = t := by simp [join]
  have hifs : ∀ w ∈ [t], ∀ c ∈ w, isIfs c = false := by
    intro w hw c hc
    rw [List.mem_singleton.mp hw] at hc
    exact isIfs_of_digitVal (h c hc)
  rw [← hjoin, fields_join hifs, hjoin]
  simp [hne]

theorem hexNum_word {a b c d : UInt8} (h : Digits [a, b, c, d]) :
    hexNum [a, b, c, d] = BitVec.ofNat 64 (256 * (UInt8.ofNat (16 * digitVal a + digitVal b)).toNat +
      (UInt8.ofNat (16 * digitVal c + digitVal d)).toNat) := by
  have ha : digitVal a < 16 := h a (by simp)
  have hb : digitVal b < 16 := h b (by simp)
  have hc : digitVal c < 16 := h c (by simp)
  have hd : digitVal d < 16 := h d (by simp)
  have hhigh : (UInt8.ofNat (16 * digitVal a + digitVal b)).toNat = 16 * digitVal a + digitVal b :=
    Nat.mod_eq_of_lt (by omega)
  have hlow : (UInt8.ofNat (16 * digitVal c + digitVal d)).toNat = 16 * digitVal c + digitVal d :=
    Nat.mod_eq_of_lt (by omega)
  rw [hexNum, hhigh, hlow]
  simp only [numeral, List.foldl_cons, List.foldl_nil]
  congr 1
  omega

/-- The words of a text go into a checksum like those of its bytes. -/
theorem foldl_pieces (acc : Num) {n : ℕ} (hlen : t.length = 4 * n) (h : Digits t) :
    (pieces 4 t).foldl (fun ret val => ret ^^^ hexNum val) acc =
      acc ^^^ BitVec.ofNat 64 (xorSum (unhex t)) := by
  -- four digits are one piece, and two bytes of the word
  induction n generalizing t acc with
  | zero =>
    obtain rfl := List.length_eq_zero_iff.mp hlen
    rw [pieces_nil (by decide), List.foldl_nil, unhex_nil, xorSum_nil, BitVec.xor_zero]
  | succ n ih =>
    match t, hlen with
    | a :: b :: c :: d :: t, hlen =>
      have hcut : pieces 4 (a :: b :: c :: d :: t) = [a, b, c, d] :: pieces 4 t :=
        pieces_append (a := [a, b, c, d]) t (by decide) rfl
      have hword : Digits [a, b, c, d] := fun x hx =>
        h x (List.mem_append_left t hx)
      have hrest : Digits t := fun x hx => h x (List.mem_append_right [a, b, c, d] hx)
      rw [List.length_cons, List.length_cons, List.length_cons, List.length_cons] at hlen
      rw [hcut, List.foldl_cons, ih _ (by omega) hrest, hexNum_word hword, unhex, unhex, xorSum,
        BitVec.ofNat_xor, BitVec.xor_assoc]

end Words

section Patch

variable {image data old word : Bytes}

theorem hexNum_hexdump (h : word.length = 2) :
    hexNum (hexdump word) = BitVec.ofNat 64 (xorSum word) := by
  have hlen : (hexdump word).length = 4 := by rw [length_hexdump, h]
  have hcut : pieces 4 (hexdump word) = [hexdump word] := by
    have hcut := pieces_append (k := 4) [] (by decide) hlen
    rwa [List.append_nil, pieces_nil (by decide)] at hcut
  have hfold := foldl_pieces 0 (n := 1) hlen (digits_hexdump word)
  rw [hcut, List.foldl_cons, List.foldl_nil, unhex_hexdump] at hfold
  simpa using hfold

/-- The old data goes out of the checksum word, and the new data goes in. -/
theorem newChksum_eq (hword : word.length = 2) (hold : old.length % 2 = 0)
    (hdata : data.length % 4 = 0) (h : Digits data) :
    newChksum (hexdump word) (hexdump old) data =
      zeroPad 4 (hex (xorSum word ^^^ xorSum old ^^^ xorSum (unhex data))) := by
  obtain ⟨m, hm⟩ : ∃ m, (hexdump old).length = 4 * m :=
    ⟨old.length / 2, by rw [length_hexdump]; omega⟩
  obtain ⟨n, hn⟩ : ∃ n, data.length = 4 * n := ⟨data.length / 4, by omega⟩
  have hlen : (hexdump word).length = 4 := by rw [length_hexdump, hword]
  have hfirst : fields (hexdump word) = [hexdump word] :=
    fields_digits (digits_hexdump word) (List.ne_nil_of_length_pos (by omega))
  have hnonempty : (pieces 4 (hexdump old) ++ pieces 4 data).takeWhile (· ≠ []) =
      pieces 4 (hexdump old) ++ pieces 4 data := by
    rw [List.takeWhile_eq_self_iff]
    intro w hw
    rcases List.mem_append.mp hw with hw | hw
    · exact decide_eq_true (pieces_spec _ w hw).1
    · exact decide_eq_true (pieces_spec _ w hw).1
  have hlt : xorSum word ^^^ xorSum old ^^^ xorSum (unhex data) < 2 ^ 16 :=
    Nat.xor_lt_two_pow (Nat.xor_lt_two_pow (xorSum_lt word) (xorSum_lt old)) (xorSum_lt _)
  rw [newChksum, hfirst, fields_data2xorVal (digits_hexdump old), fields_data2xorVal h,
    List.append_assoc, List.singleton_append, xor]
  simp only [List.headD_cons, List.tail_cons]
  rw [hnonempty, List.foldl_append, foldl_pieces _ hm (digits_hexdump old), foldl_pieces _ hn h,
    hexNum_hexdump hword, unhex_hexdump, hlen, ← BitVec.ofNat_xor, ← BitVec.ofNat_xor,
    BitVec.toNat_ofNat, Nat.mod_eq_of_lt (hlt.trans (by decide))]

/-- The new checksum word makes up for the change of the data. -/
theorem xorSum_newChksum (hword : word.length = 2) (hold : old.length % 2 = 0)
    (hdata : data.length % 4 = 0) (h : Digits data) :
    (data2bin (newChksum (hexdump word) (hexdump old) data)).length = 2 ∧
      xorSum (data2bin (newChksum (hexdump word) (hexdump old) data)) =
        xorSum word ^^^ xorSum old ^^^ xorSum (unhex data) := by
  have hlt : xorSum word ^^^ xorSum old ^^^ xorSum (unhex data) < 2 ^ 16 :=
    Nat.xor_lt_two_pow (Nat.xor_lt_two_pow (xorSum_lt word) (xorSum_lt old)) (xorSum_lt _)
  rw [newChksum_eq hword hold hdata h, zeroPad_hex_word hlt,
    data2bin_eq (by rw [length_hexdump, Nat.mul_mod_right]), unhex_hexdump]
  exact ⟨rfl, xorSum_word hlt⟩

theorem dd_inside {seek count : ℕ} {input : Bytes} (hcount : input.length = count)
    (h : seek + count ≤ image.length) : dd image seek count input = overwrite image seek input := by
  rw [dd, Nat.sub_eq_zero_of_le (by omega), List.replicate_zero, List.append_nil,
    List.take_of_length_le hcount.le]

/-- `caldata_patch_data` writes the data, and the checksum word takes up the difference. -/
theorem patch_sound {dataOffset chksumOffset : ℕ} (hdigits : Digits data)
    (hdata : data.length % 4 = 0) (heven : dataOffset % 2 = 0) (hchk : chksumOffset % 2 = 0)
    (hin : dataOffset + data.length / 2 ≤ image.length) (hchkin : chksumOffset + 2 ≤ image.length)
    (hapart : dataOffset + data.length / 2 ≤ chksumOffset ∨ chksumOffset + 2 ≤ dataOffset) :
    Patched image (unhex data) dataOffset chksumOffset
      (caldataPatchData data (some dataOffset) (some chksumOffset) image) := by
  have hlen : (unhex data).length = data.length / 2 := length_unhex data
  have hpart := hasAt_slice image dataOffset (data.length / 2)
  have hword := hasAt_slice image chksumOffset 2
  have hpartlen : ((image.drop dataOffset).take (data.length / 2)).length = data.length / 2 :=
    List.length_take_of_le (by rw [List.length_drop]; omega)
  have hwordlen : ((image.drop chksumOffset).take 2).length = 2 :=
    List.length_take_of_le (by rw [List.length_drop]; omega)
  simp only [caldataPatchData]
  split_ifs with hnil hsame
  · -- no data
    subst hnil
    exact ⟨rfl, fun i hi => absurd hi (Nat.not_lt_zero i), rfl, fun _ _ _ => rfl⟩
  · -- the data is there already
    have hthere : unhex data = (image.drop dataOffset).take (data.length / 2) := by
      conv_lhs => rw [hsame, unhex_hexdump]
    exact ⟨rfl, hthere ▸ hpart, rfl, fun _ _ _ => rfl⟩
  · generalize (image.drop dataOffset).take (data.length / 2) = old at hpart hpartlen
    generalize (image.drop chksumOffset).take 2 = word at hword hwordlen
    have hold : old.length % 2 = 0 := by omega
    obtain ⟨hnewlen, hnew⟩ := xorSum_newChksum hwordlen hold hdata hdigits
    generalize data2bin (newChksum (hexdump word) (hexdump old) data) = new at hnewlen hnew
    have hfirst : (overwrite image chksumOffset new).length = image.length :=
      length_overwrite (by omega)
    have hkept : HasAt (overwrite image chksumOffset new) dataOffset old :=
      hpart.of_apart (by omega) (by omega)
    have hroom : dataOffset + data.length / 2 ≤ (overwrite image chksumOffset new).length := by
      rw [hfirst]
      exact hin
    -- both writes lie inside the image
    rw [data2bin_eq (t := data) (by omega), dd_inside hnewlen hchkin, dd_inside hlen hroom]
    refine ⟨?_, hasAt_overwrite (by omega), ?_, fun i hi hi' => ?_⟩
    · rw [length_overwrite (by omega), hfirst]
    · -- what the data changes, the checksum word changes back
      rw [xorSum_overwrite hkept heven (by omega) (by omega) (by omega),
        xorSum_overwrite hword hchk (by omega) (by omega) (by omega), hnew]
      generalize xorSum image = a, xorSum word = b, xorSum old = c, xorSum (unhex data) = d
      calc a ^^^ b ^^^ (b ^^^ c ^^^ d) ^^^ c ^^^ d
          = a ^^^ ((b ^^^ b) ^^^ (c ^^^ c) ^^^ (d ^^^ d)) := by ac_rfl
        _ = a := by simp only [Nat.xor_self, Nat.xor_zero]
    · rw [getElem?_overwrite (by omega) hi, getElem?_overwrite (by omega) (by omega)]

/-- The address of a radio, with the checksum word before it. -/
theorem patch_address :
    Patched [1, 2, 3, 4, 5, 6, 7, 8, 9, 10, 11, 12] [0xaa, 0xbb, 0xcc, 0xdd, 0xee, 0xff] 6 2
      (caldataPatchData (ascii "aabbccddeeff") (some 6) (some 2)
        [1, 2, 3, 4, 5, 6, 7, 8, 9, 10, 11, 12]) := by
  have hbytes : unhex (ascii "aabbccddeeff") = [0xaa, 0xbb, 0xcc, 0xdd, 0xee, 0xff] := by
    decide +kernel
  rw [← hbytes]
  have hdigits : Digits (ascii "aabbccddeeff") := by
    unfold Digits
    decide +kernel
  exact patch_sound hdigits (by decide) (by decide) (by decide) (by decide) (by decide) (by decide)

end Patch

end NeonWrt.BaseFiles.Caldata
