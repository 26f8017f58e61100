import NeonWrt.Mtd.Layout

/-!
# Images on the devices

Once an image is written to its places it stays there, since no place is used
twice, and a dump that looks at the same flags gives it back.
-/

namespace NeonWrt.Mtd

open Lib

/-- The bytes of a block. -/
def contents (size : ℕ) (mem : ℕ → UInt8) (b : ℕ) : Bytes := (List.range size).map fun i => mem (b * size + i)

section Events

variable {size : ℕ} {sizes : ℕ → ℕ} {flash : Flash}

theorem apply_erase_of_ne {dev block i a : ℕ} (h : i = dev → a / sizes dev ≠ block) :
    (Event.erase dev block).apply sizes flash i a = flash i a :=
  if_neg fun hin => h hin.1 hin.2

theorem apply_write_of_ne {dev addr i a : ℕ} {dat : Bytes}
    (h : i = dev → addr ≤ a → addr + dat.length ≤ a) :
    (Event.write dev addr dat).apply sizes flash i a = flash i a := by
  apply if_neg
  rintro ⟨hi, hle, hlt⟩
  have := h hi hle
  omega

theorem div_eq_of_block {a b : ℕ} (hle : b * size ≤ a) (hlt : a < b * size + size) : a / size = b :=
  Nat.div_eq_of_lt_le hle (by rw [Nat.succ_mul]; exact hlt)

/-- Blocks that have no entry keep what they hold. -/
theorem applyAll_plan_of_notMem (entries : List ((ℕ × ℕ) × Bytes)) {i a : ℕ}
    (hsize : ∀ x ∈ entries, sizes x.1.1 = size) (hlen : ∀ x ∈ entries, x.2.length = size)
    (h : ∀ x ∈ entries, x.1 ≠ (i, a / size)) :
    applyAll sizes flash (plan size entries) i a = flash i a := by
  induction entries generalizing flash with
  | nil => rfl
  | cons x entries ih =>
    obtain ⟨⟨dev, b⟩, dat⟩ := x
    have hx := h _ List.mem_cons_self
    have hlenx : dat.length = size := hlen _ List.mem_cons_self
    have hsizex : sizes dev = size := hsize _ List.mem_cons_self
    rw [plan, List.flatMap_cons, applyAll, List.foldl_append]
    have hrest := @ih (applyAll sizes flash [.erase dev b, .write dev (b * size) dat])
      (fun y hy => hsize y (List.mem_cons_of_mem _ hy))
      (fun y hy => hlen y (List.mem_cons_of_mem _ hy)) fun y hy => h y (List.mem_cons_of_mem _ hy)
    refine hrest.trans ?_
    show (Event.write dev (b * size) dat).apply sizes _ i a = _
    rw [apply_write_of_ne, apply_erase_of_ne]
    · rintro rfl hdiv
      exact hx (by rw [← hdiv, hsizex])
    · rintro rfl hle
      by_contra hlt
      exact hx (by rw [div_eq_of_block hle (by omega)])

/-- A block that was erased and written holds the data. -/
theorem contents_entry {dev b : ℕ} {dat : Bytes} (hsize : sizes dev = size)
    (hlen : dat.length = size) :
    contents size (applyAll sizes flash [.erase dev b, .write dev (b * size) dat] dev) b = dat := by
  apply List.ext_getElem
  · simp [contents, hlen]
  · intro j hj hj'
    have hj : j < size := by simpa [contents] using hj
    have hdiv : (b * size + j) / size = b := div_eq_of_block (by omega) (by omega)
    have herased : (Event.erase dev b).apply sizes flash dev (b * size + j) = 0xff :=
      if_pos ⟨rfl, by rw [hsize, hdiv]⟩
    have hwritten : applyAll sizes flash [.erase dev b, .write dev (b * size) dat] dev (b * size + j) =
        0xff &&& dat.getD j 0xff := by
      show (if _ then (Event.erase dev b).apply sizes flash dev (b * size + j) &&& _ else _) = _
      rw [if_pos ⟨rfl, by omega, by omega⟩, herased, Nat.add_sub_cancel_left]
    have hff : ∀ x : UInt8, 0xff &&& x = x := fun x => UInt8.neg_one_and
    simp [contents, hwritten, hff, hj']

/-- Each place holds its block once all are written. -/
theorem contents_plan (entries : List ((ℕ × ℕ) × Bytes))
    (hsize : ∀ x ∈ entries, sizes x.1.1 = size) (hlen : ∀ x ∈ entries, x.2.length = size)
    (hnodup : (entries.map Prod.fst).Nodup) : ∀ x ∈ entries,
      contents size (applyAll sizes flash (plan size entries) x.1.1) x.1.2 = x.2 := by
  induction entries generalizing flash with
  | nil => simp
  | cons y entries ih =>
    intro x hx
    rw [List.map_cons, List.nodup_cons] at hnodup
    have hsplit : applyAll sizes flash (plan size (y :: entries)) = applyAll sizes
        (applyAll sizes flash [.erase y.1.1 y.1.2, .write y.1.1 (y.1.2 * size) y.2])
        (plan size entries) := by
      rw [plan, List.flatMap_cons, applyAll, List.foldl_append]
      rfl
    have hsize' : ∀ x ∈ entries, sizes x.1.1 = size := fun x hx =>
      hsize x (List.mem_cons_of_mem _ hx)
    have hlen' : ∀ x ∈ entries, x.2.length = size := fun x hx => hlen x (List.mem_cons_of_mem _ hx)
    rw [hsplit]
    rcases List.mem_cons.mp hx with rfl | hx
    · -- the later blocks go elsewhere
      have hkeep : contents size (applyAll sizes
          (applyAll sizes flash [.erase x.1.1 x.1.2, .write x.1.1 (x.1.2 * size) x.2])
          (plan size entries) x.1.1) x.1.2 =
          contents size (applyAll sizes flash
            [.erase x.1.1 x.1.2, .write x.1.1 (x.1.2 * size) x.2] x.1.1) x.1.2 := by
        refine List.map_congr_left fun j hj => ?_
        have hj := List.mem_range.mp hj
        refine applyAll_plan_of_notMem entries hsize' hlen' fun z hz heq => ?_
        rw [@div_eq_of_block size (x.1.2 * size + j) x.1.2 (by omega) (by omega)] at heq
        exact hnodup.1 (List.mem_map.mpr ⟨z, hz, heq⟩)
      rw [hkeep]
      exact contents_entry (hsize x List.mem_cons_self) (hlen x List.mem_cons_self)
    · exact ih hsize' hlen' hnodup.2 x hx

end Events

section Devices

variable {d : Device} {first k b : ℕ} {ds : List Device}

/-- The block at which a device has no more room, with as many good blocks before it as places. -/
theorem exists_end (hfirst : first ≤ b) : ∃ e, b ≤ e ∧ e ≤ max b d.blocks ∧ d.EndsAt e ∧
    (∀ c, b ≤ c → c < e → d.bad c = true ∨ d.stuck c = false) ∧
    d.goodBefore first e = d.goodBefore first b + (d.usableFrom b).length := by
  induction hn : d.blocks - b generalizing b with
  | zero =>
    have hend : d.blocks ≤ b := by omega
    refine ⟨b, le_rfl, le_max_left _ _, .inl hend, fun c hc hlt => by omega, ?_⟩
    rw [usableFrom_of_le hend, List.length_nil, Nat.add_zero]
  | succ n ih =>
    by_cases hend : d.bad b = false ∧ d.stuck b = true
    · refine ⟨b, le_rfl, le_max_left _ _, .inr hend, fun c hc hlt => by omega, ?_⟩
      rw [usableFrom_of_stuck hend.1 hend.2, List.length_nil, Nat.add_zero]
    · obtain ⟨e, hle, hmax, hends, hfree, hcount⟩ := @ih (b + 1) (by omega) (by omega)
      have hb : d.bad b = true ∨ d.stuck b = false := by
        cases hbad : d.bad b with
        | true => exact .inl rfl
        | false => exact .inr (by simpa [hbad] using hend)
      refine ⟨e, by omega, by omega, hends, fun c hc hlt => ?_, ?_⟩
      · by_cases hcb : c = b
        · rw [hcb]
          exact hb
        · exact hfree c (by omega) hlt
      · rw [hcount, goodBefore_succ hfirst]
        cases hbad : d.bad b with
        | true =>
          rw [usableFrom_of_bad hbad]
          simp
        | false =>
          rw [usableFrom_of_good (by omega) hbad (hb.resolve_left (by simp [hbad])), List.length_cons]
          simp
          omega

/-- A device that does not hold all blocks is left with its flags agreeing. -/
theorem Agree.next (h : Agree first (d :: ds) k) (hk : (d.usableFrom first).length < k) :
    ∀ d' ∈ ds.head?, d'.eraseSize = d.eraseSize ∧
      Agree first ds (k - (d.usableFrom first).length) := by
  intro d' hd'
  obtain ⟨e, hle, hmax, hends, hfree, hcount⟩ := @exists_end d first first le_rfl
  rw [goodBefore_first, Nat.zero_add] at hcount
  have hreached : Reached d first k e := ⟨hle, hmax, by omega, hfree⟩
  obtain ⟨hgood, hsize, hagree⟩ := (h e hreached).2 hends d' hd'
  rw [goodBefore_of_good hle hgood] at hcount
  rw [← hcount]
  exact ⟨hsize, hagree⟩

theorem dev_le_of_mem_slots {i : ℕ} {p : ℕ × ℕ} (h : p ∈ slots first i ds) : i ≤ p.1 := by
  induction ds generalizing i with
  | nil => exact absurd h List.not_mem_nil
  | cons d ds ih =>
    rcases List.mem_append.mp h with hmem | hmem
    · obtain ⟨c, -, rfl⟩ := List.mem_map.mp hmem
      exact le_rfl
    · have hle := ih hmem
      omega

theorem nodup_slots {i : ℕ} : (slots first i ds).Nodup := by
  induction ds generalizing i with
  | nil => exact List.nodup_nil
  | cons d ds ih =>
    refine List.nodup_append.mpr ⟨nodup_usableFrom.map (Prod.mk_right_injective i), ih, ?_⟩
    intro p hp q hq heq
    obtain ⟨c, -, rfl⟩ := List.mem_map.mp hp
    have hle := dev_le_of_mem_slots hq
    rw [← heq] at hle
    omega

/-- The places that are used lie on good blocks of devices with blocks of one size. -/
theorem Agree.of_mem_take {i size : ℕ} {p : ℕ × ℕ} (h : Agree first ds k)
    (hsize : ∀ d ∈ ds.head?, d.eraseSize = size) (hp : p ∈ (slots first i ds).take k) :
    ∃ d, ds[p.1 - i]? = some d ∧ i ≤ p.1 ∧ d.eraseSize = size ∧ p.2 ∈ d.usableFrom first := by
  induction ds generalizing i k with
  | nil => simp [slots] at hp
  | cons d ds ih =>
    have hd : d.eraseSize = size := hsize d rfl
    rw [slots, List.take_append, List.length_map] at hp
    rcases List.mem_append.mp hp with hmem | hmem
    · obtain ⟨c, hc, rfl⟩ := List.mem_map.mp (List.mem_of_mem_take hmem)
      exact ⟨d, by simp, le_rfl, hd, hc⟩
    · have hlt : (d.usableFrom first).length < k := by
        by_contra hle
        rw [Nat.sub_eq_zero_of_le (by omega), List.take_zero] at hmem
        exact absurd hmem List.not_mem_nil
      have hnext := h.next hlt
      have hagree : Agree first ds (k - (d.usableFrom first).length) := by
        cases ds with
        | nil => trivial
        | cons d' ds => exact (hnext d' rfl).2
      obtain ⟨d', hget, hle, hsize', hmem'⟩ := ih hagree (fun d' hd' => by rw [(hnext d' hd').1, hd]) hmem
      refine ⟨d', ?_, by omega, hsize', hmem'⟩
      rw [show p.1 - i = p.1 - (i + 1) + 1 by omega, List.getElem?_cons_succ]
      exact hget

end Devices

section Dumps

variable {d : Device} {first k : ℕ} {mem : ℕ → UInt8}

theorem blockIsBad_of_lt {j : ℕ} (h : j < d.blocks) :
    d.blockIsBad (j * d.eraseSize) = some (d.bad j) := by
  rcases @blockIsBad_mul d j with hnone | hsome
  · rw [Device.blockIsBad] at hnone
    have hlt : j * d.eraseSize < d.size := (Nat.mul_lt_mul_right d.eraseSize_pos).mpr h
    split_ifs at hnone
  · exact hsome

/-- A dump begins with the good blocks for which the flags agree. -/
theorem dumpLoop_front {b m n size : ℕ}
    (hagree : ∀ b, Reached d first k b → d.bad (b - first) = d.bad b) (hfirst : first ≤ b)
    (hfree : ∀ c, first ≤ c → c < b → d.bad c = true ∨ d.stuck c = false)
    (hcount : d.goodBefore first b + m ≤ k) (hn : d.blocks - b < n)
    (hsize : (d.blocks - b) * d.eraseSize ≤ size) :
    (((d.usableFrom b).take m).flatMap (contents d.eraseSize mem)) <+:
      dumpLoop d mem n (b * d.eraseSize) ((b - first) * d.eraseSize) size := by
  induction n generalizing b m size with
  | zero => omega
  | succ n ih =>
    rcases Nat.lt_or_ge b d.blocks with hlt | hge
    · cases m with
      | zero => exact List.nil_prefix
      | succ m =>
        have hpos := d.eraseSize_pos
        have hreached : Reached d first k b :=
          ⟨hfirst, le_max_of_le_right hlt.le, by omega, hfree⟩
        have hroom : (d.blocks - b) * d.eraseSize =
            (d.blocks - (b + 1)) * d.eraseSize + d.eraseSize := by
          rw [show d.blocks - b = d.blocks - (b + 1) + 1 by omega, Nat.succ_mul]
        have hlen : (if d.eraseSize < size then d.eraseSize else size) = d.eraseSize := by
          split_ifs
          · rfl
          · omega
        have hrlen : min d.eraseSize (d.size - b * d.eraseSize) = d.eraseSize := by
          rw [Device.size, ← Nat.sub_mul, hroom]
          omega
        have hoff : (b - first) * d.eraseSize + d.eraseSize = (b + 1 - first) * d.eraseSize := by
          rw [show b + 1 - first = b - first + 1 by omega, Nat.succ_mul]
        rw [dumpLoop, hlen, hrlen, if_neg (by omega), blockIsBad_of_lt (by omega), hagree b hreached,
          ← Nat.succ_mul, hoff]
        by_cases hstuck : d.bad b = false ∧ d.stuck b = true
        · rw [usableFrom_of_stuck hstuck.1 hstuck.2]
          exact List.nil_prefix
        · have hb : d.bad b = true ∨ d.stuck b = false := by
            cases hbad : d.bad b with
            | true => exact .inl rfl
            | false => exact .inr (by simpa [hbad] using hstuck)
          have hfree' : ∀ c, first ≤ c → c < b + 1 → d.bad c = true ∨ d.stuck c = false := by
            intro c hc hclt
            by_cases hcb : c = b
            · rw [hcb]
              exact hb
            · exact hfree c hc (by omega)
          have hsucc := @goodBefore_succ d first b hfirst
          cases hbad : d.bad b with
          | true =>
            rw [hbad] at hsucc
            rw [usableFrom_of_bad hbad]
            exact ih (by omega) hfree' (by simpa [hsucc] using hcount) (by omega) (by omega)
          | false =>
            rw [hbad, if_pos rfl] at hsucc
            rw [usableFrom_of_good hlt hbad (hb.resolve_left (by simp [hbad])), List.take_succ_cons,
              List.flatMap_cons]
            refine (List.prefix_append_right_inj _).mpr ?_
            exact ih (by omega) hfree' (by omega) (by omega) (by omega)
    · rw [usableFrom_of_le hge, List.take_nil]
      exact List.nil_prefix

/-- The part of the places that lies on one device. -/
def partOn (i : ℕ) (places : List (ℕ × ℕ)) : List ℕ :=
  (places.filter fun p => p.1 = i).map Prod.snd

/-- Each device gives back what its part of the places holds. -/
theorem Agree.dump_prefix {ds : List Device} {i size : ℕ} (h : Agree first ds k)
    (hsize : ∀ d ∈ ds.head?, d.eraseSize = size) (flash : Flash) {j : ℕ} {d : Device}
    (hj : ds[j]? = some d) :
    (partOn (i + j) ((slots first i ds).take k)).flatMap (contents size (flash (i + j))) <+:
      mtdDump d (flash (i + j)) (first * size) := by
  induction ds generalizing i j k with
  | nil => simp at hj
  | cons d₀ ds ih =>
    have hd₀ : d₀.eraseSize = size := hsize d₀ rfl
    rw [slots, List.take_append, List.length_map, partOn, List.filter_append, List.map_append]
    cases j with
    | zero =>
      obtain rfl : d₀ = d := Option.some.inj hj
      have hown : (((d₀.usableFrom first).map (Prod.mk i)).take k).filter (fun p => p.1 = i + 0) =
          ((d₀.usableFrom first).take k).map (Prod.mk i) := by
        rw [← List.map_take, List.filter_eq_self]
        intro p hp
        obtain ⟨c, -, rfl⟩ := List.mem_map.mp hp
        simp
      have hrest : ((slots first (i + 1) ds).take (k - (d₀.usableFrom first).length)).filter
          (fun p => p.1 = i + 0) = [] := by
        rw [List.filter_eq_nil_iff]
        intro p hp
        have hle := dev_le_of_mem_slots (List.mem_of_mem_take hp)
        simp
        omega
      rw [hown, hrest, List.map_nil, List.append_nil, List.map_map, ← hd₀]
      have hdump := @dumpLoop_front d₀ first k (flash (i + 0)) first k (d₀.blocks + 1) d₀.size
        (fun b hb => (h b hb).1) le_rfl (fun c hc hlt => by omega) (by rw [goodBefore_first]; omega)
        (by omega) (Nat.mul_le_mul_right _ (Nat.sub_le ..))
      rw [Nat.sub_self, Nat.zero_mul] at hdump
      simpa [mtdDump] using hdump
    | succ j =>
      have hown : (((d₀.usableFrom first).map (Prod.mk i)).take k).filter
          (fun p => p.1 = i + (j + 1)) = [] := by
        rw [List.filter_eq_nil_iff]
        intro p hp
        obtain ⟨c, -, rfl⟩ := List.mem_map.mp (List.mem_of_mem_take hp)
        simp
      rw [hown, List.map_nil, List.nil_append, show i + (j + 1) = i + 1 + j by omega]
      rcases Nat.lt_or_ge (d₀.usableFrom first).length k with hlt | hle
      · have hnext := h.next hlt
        have hagree : Agree first ds (k - (d₀.usableFrom first).length) := by
          cases ds with
          | nil => trivial
          | cons d' ds => exact (hnext d' rfl).2
        exact ih hagree (fun d' hd' => by rw [(hnext d' hd').1, hd₀]) (by simpa using hj)
      · rw [Nat.sub_eq_zero_of_le hle, List.take_zero]
        exact List.nil_prefix

end Dumps

/-- An event that is about good blocks of a device only. -/
def Safe (devices : List Device) : Event → Prop
  | .erase dev b => ∃ d, devices[dev]? = some d ∧ b < d.blocks ∧ d.bad b = false
  | .write dev addr dat => ∃ d, devices[dev]? = some d ∧
      ∀ a, addr ≤ a → a < addr + dat.length → a / d.eraseSize < d.blocks ∧ d.bad (a / d.eraseSize) = false

/-- The erase size of each device. -/
def sizesOf (devices : List Device) (i : ℕ) : ℕ := ((devices[i]?).map Device.eraseSize).getD 0

/-- No bad block is erased or written; the places hold the image, padded to whole blocks; and a
dump of a device begins with what was written to it. -/
structure Laid (devices : List Device) (first size : ℕ) (image : Bytes) (flash : Flash)
    (events : List Event) : Prop where
  safe : ∀ e ∈ events, Safe devices e
  fits : blockCount size image ≤ (slots first 0 devices).length
  stored : ((slots first 0 devices).take (blockCount size image)).flatMap
      (fun p => contents size (applyAll (sizesOf devices) flash events p.1) p.2) =
    image ++ List.replicate (blockCount size image * size - image.length) 0xff
  dumped : ∀ i d, devices[i]? = some d →
    (partOn i ((slots first 0 devices).take (blockCount size image))).flatMap
        (contents size (applyAll (sizesOf devices) flash events i)) <+:
      mtdDump d (applyAll (sizesOf devices) flash events i) (first * size)

/-- Blocks are erased before they are written, no read of the image fails, and the flags that are
looked up are the right ones. -/
structure WriteOk (call : Call) (devices : List Device) (first size : ℕ) (head : Bytes)
    (reads : List Read) : Prop where
  erases : call.noErase = false
  readable : NoFailure reads
  agree : Agree first devices (blockCount size (head ++ imageOf reads))

section Image

variable {call : Call} {d : Device} {ds : List Device} {head : Bytes} {reads : List Read}
  {first : ℕ} {events : List Event}

theorem WriteOk.sync (hok : WriteOk call (d :: ds) first d.eraseSize head reads)
    (hoffset : call.partOffset = first * d.eraseSize) (hhead : head.length ≤ d.eraseSize) :
    Sync call first (blockCount d.eraseSize (head ++ imageOf reads)) first
      ⟨0, d, ds, head, reads, 0, ⟨0, 0, 0, call.partOffset⟩, []⟩ where
  noErase := hok.erases
  partOffset := hoffset
  reads := hok.readable
  buf_le := hhead
  offset := rfl
  le := le_rfl
  le_blocks := le_max_left _ _
  e := by rw [Nat.sub_self, Nat.zero_mul]
  pos := hoffset
  w := rfl
  skip := fun _ => rfl
  free := fun c hc hlt => by omega
  count := by
    show d.goodBefore first first + _ = _
    rw [goodBefore_first, Nat.zero_add]
    rfl
  agree := hok.agree

/-- A call that succeeds and meets the condition puts the image where it should be. -/
theorem mtdWrite_laid (flash : Flash) (hoffset : call.partOffset = first * d.eraseSize)
    (hhead : head.length ≤ d.eraseSize) (hok : WriteOk call (d :: ds) first d.eraseSize head reads)
    (h : mtdWrite call (d :: ds) head reads = some events) :
    Laid (d :: ds) first d.eraseSize (head ++ imageOf reads) flash events := by
  have hsize : ∀ d' ∈ (d :: ds).head?, d'.eraseSize = d.eraseSize := by
    rintro d' hd'
    rw [Option.some.inj hd']
  obtain ⟨hfits, hevents⟩ := writeLoop_eq (hok.sync hoffset hhead) h
  generalize himage : head ++ imageOf reads = image
  change blockCount d.eraseSize (head ++ imageOf reads) ≤ (slots first 0 (d :: ds)).length at hfits
  change events = plan d.eraseSize ((slots first 0 (d :: ds)).zip (blocksOf d.eraseSize
    (blockCount d.eraseSize (head ++ imageOf reads)) (head ++ imageOf reads))) at hevents
  have hagree := hok.agree
  rw [himage] at hfits hevents hagree
  have hall : (blocksOf d.eraseSize (blockCount d.eraseSize image) image).take
      (blockCount d.eraseSize image) = blocksOf d.eraseSize (blockCount d.eraseSize image) image :=
    List.take_of_length_le (by rw [length_blocksOf])
  rw [List.zip_eq_zip_take_min, length_blocksOf, Nat.min_eq_right hfits, hall] at hevents
  -- the places that are used, each with its block
  generalize hentries : ((slots first 0 (d :: ds)).take (blockCount d.eraseSize image)).zip
    (blocksOf d.eraseSize (blockCount d.eraseSize image) image) = entries at hevents
  have hfst : entries.map Prod.fst = (slots first 0 (d :: ds)).take (blockCount d.eraseSize image) := by
    rw [← hentries, List.map_fst_zip]
    rw [length_blocksOf, List.length_take]
    omega
  have hsnd : entries.map Prod.snd = blocksOf d.eraseSize (blockCount d.eraseSize image) image := by
    rw [← hentries, List.map_snd_zip]
    rw [length_blocksOf, List.length_take]
    omega
  have hplace : ∀ x ∈ entries, ∃ d', (d :: ds)[x.1.1]? = some d' ∧ d'.eraseSize = d.eraseSize ∧
      x.1.2 ∈ d'.usableFrom first := by
    intro x hx
    have hmem := List.mem_map_of_mem (f := Prod.fst) hx
    rw [hfst] at hmem
    obtain ⟨d', hget, -, hrest⟩ := hagree.of_mem_take hsize hmem
    exact ⟨d', hget, hrest⟩
  have hlen : ∀ x ∈ entries, x.2.length = d.eraseSize := by
    intro x hx
    have hmem := List.mem_map_of_mem (f := Prod.snd) hx
    rw [hsnd] at hmem
    exact length_of_mem_blocksOf hmem
  have hsizes : ∀ x ∈ entries, sizesOf (d :: ds) x.1.1 = d.eraseSize := by
    intro x hx
    obtain ⟨d', hget, hsize', -⟩ := hplace x hx
    rw [sizesOf, hget]
    exact hsize'
  refine ⟨?_, hfits, ?_, ?_⟩
  · intro e he
    rw [hevents, plan, List.mem_flatMap] at he
    obtain ⟨x, hx, he⟩ := he
    obtain ⟨d', hget, hsize', hmem⟩ := hplace x hx
    obtain ⟨-, hlt, hgood⟩ := mem_usableFrom hmem
    rcases List.mem_cons.mp he with rfl | he
    · exact ⟨d', hget, hlt, hgood⟩
    · obtain rfl := List.mem_singleton.mp he
      refine ⟨d', hget, fun a hle hlt' => ?_⟩
      rw [hlen x hx] at hlt'
      rw [hsize', div_eq_of_block hle hlt']
      exact ⟨hlt, hgood⟩
  · rw [← flatten_blocksOf (length_le_blockCount d.eraseSize_pos), ← hsnd, ← hfst, List.flatMap_map,
      hevents, ← List.flatMap_id, List.flatMap_map]
    have hnodup : (entries.map Prod.fst).Nodup := by
      rw [hfst]
      exact List.Nodup.sublist (List.take_sublist ..) nodup_slots
    exact List.flatMap_congr fun x hx => contents_plan entries hsizes hlen hnodup x hx
  · intro i d' hd'
    have hdump := @Agree.dump_prefix first (blockCount d.eraseSize image) (d :: ds) 0 d.eraseSize
      hagree hsize (applyAll (sizesOf (d :: ds)) flash events) i d' hd'
    rwa [Nat.zero_add] at hdump

end Image

/-- Without an offset and with one device there is nothing to go wrong. -/
theorem agree_single (d : Device) (k : ℕ) : Agree 0 [d] k := by
  intro b _
  refine ⟨by rw [Nat.sub_zero], fun _ d' hd' => ?_⟩
  exact absurd hd' (by simp)

/-- A device of four blocks of two bytes each, the first of them bad. -/
def smallDevice : Device where
  eraseSize := 2
  blocks := 4
  nand := true
  bad := fun b => b == 0
  stuck := fun _ => false
  eraseSize_pos := by decide
  bad_lt := by simp

/-- A call with an offset and no options. -/
def plainCall (partOffset : ℕ) : Call := ⟨false, partOffset, fun _ => 0⟩

/-- An image of three bytes goes to the second and third block. -/
theorem laid_three_bytes : ∃ events, mtdWrite (plainCall 0) [smallDevice] [1] [.got [2, 3]] = some events ∧
    Laid [smallDevice] 0 2 [1, 2, 3] (fun _ _ => 0) events := by
  have hrun : mtdWrite (plainCall 0) [smallDevice] [1] [.got [2, 3]] =
      some [.erase 0 1, .write 0 2 [1, 2], .erase 0 2, .write 0 4 [3, 0xff]] := by
    decide +kernel
  have hok : WriteOk (plainCall 0) [smallDevice] 0 smallDevice.eraseSize [1] [.got [2, 3]] :=
    ⟨rfl, trivial, agree_single smallDevice _⟩
  exact ⟨_, hrun, mtdWrite_laid _ rfl (by decide) hok hrun⟩

/-- With an offset of one block the flag of the first block is looked up, and the second block,
which is good, is left out. -/
theorem exists_image_not_laid : ¬ ∀ (call : Call) (d : Device) (ds : List Device) (head : Bytes)
    (reads : List Read) (first : ℕ) (events : List Event) (flash : Flash), call.noErase = false →
    NoFailure reads → call.partOffset = first * d.eraseSize → head.length ≤ d.eraseSize →
    mtdWrite call (d :: ds) head reads = some events →
    Laid (d :: ds) first d.eraseSize (head ++ imageOf reads) flash events := by
  intro h
  have hrun : mtdWrite (plainCall 2) [smallDevice] [1] [.got [2]] =
      some [.erase 0 2, .write 0 4 [1, 2]] := by
    decide +kernel
  have hlaid := h (plainCall 2) smallDevice [] [1] [.got [2]] 1 _ (fun _ _ => 0) rfl trivial rfl
    (by decide) hrun
  exact absurd hlaid.stored (by decide +kernel)

end NeonWrt.Mtd
