import Mathlib.Data.Nat.Find
import NeonWrt.Mikrotik.SoftConfig

/-!
# The walk over RouterBOOT tags

`routerboot_tag_find` over a memory that goes on behind the buffer, with every node
it reads. Nodes are words of 32 bits: an id in the low half and the length of the
payload that follows in the high half. The next node comes after the payload,
rounded up to whole words; a null node ends the list.

The walk rounds lengths up in 16 bits, so it goes from a payload of more than 65532
bytes right into that payload. It compares neither the length of a payload with
what is left of the buffer nor the end of a node with it, and its offsets are `u16`.
-/

namespace NeonWrt.Mikrotik.TagWalk

open Lib Relation

/-- What lies at the head of a buffer and behind it. -/
abbrev Memory := ℕ → UInt8

section

variable (e : Endian) (mem : Memory) (buflen tagId : ℕ)

/-- The node at an offset. -/
def node (o : ℕ) : ℕ := e.getU32 [mem o, mem (o + 1), mem (o + 2), mem (o + 3)] 0

/-- The id in a node. -/
def idOf (n : ℕ) : ℕ := n % 65536

/-- The length in a node. -/
def lenOf (n : ℕ) : ℕ := n / 65536

/-- `ALIGN(len, sizeof(*datum))`, without a width. -/
def align (len : ℕ) : ℕ := (len + 3) / 4 * 4

/-- What a call returns: the value, what it writes to `pld_ofs` and `pld_len`, and the offsets
of the nodes it has read. -/
structure Outcome where
  ret : ℤ
  pld : Option (ℕ × ℕ)
  reads : List ℕ
  deriving DecidableEq, Repr

/-- The loop of `routerboot_tag_find` for some rounds, from an offset on. -/
def walk : ℕ → ℕ → List ℕ → Option Outcome
  | 0, _, _ => none
  | fuel + 1, datum, reads =>
    if buflen ≤ datum then some ⟨eNoEnt, none, reads⟩
    else if node e mem datum = 0 then some ⟨eNoEnt, none, datum :: reads⟩
    else if idOf (node e mem datum) = tagId then
      if buflen ≤ datum + 4 then some ⟨eNoEnt, none, datum :: reads⟩
      else some ⟨0, some ((datum + 4) % 65536, lenOf (node e mem datum)), datum :: reads⟩
    else walk fuel (datum + 4 + align (lenOf (node e mem datum)) % 65536) (datum :: reads)

/-- `routerboot_tag_find`, for some rounds of its loop. A head of `none` is a null pointer. -/
def routerbootTagFind (bufhead : Option Memory) (fuel : ℕ) : Option Outcome :=
  match bufhead with
  | none => some ⟨eInval, none, []⟩
  | some mem =>
    if tagId = 0 then some ⟨eInval, none, []⟩ else walk e mem buflen tagId fuel 0 []

/-- From one node of the list to the next. -/
def ListNext (o o' : ℕ) : Prop :=
  o + 4 ≤ buflen ∧ node e mem o ≠ 0 ∧ o' = o + 4 + align (lenOf (node e mem o))

/-- An offset the list comes to. -/
def ListNode (o : ℕ) : Prop := ReflTransGen (ListNext e mem buflen) 0 o

/-- A tag of the list with the id. -/
structure IsTag (o : ℕ) : Prop where
  listed : ListNode e mem buflen o
  whole : o + 4 ≤ buflen
  ne_zero : node e mem o ≠ 0
  id_eq : idOf (node e mem o) = tagId

/-- The first tag of the list with the id. -/
structure FirstTag (o : ℕ) : Prop extends IsTag e mem buflen tagId o where
  first : ∀ p, IsTag e mem buflen tagId p → o ≤ p

/-- Nodes are read inside the buffer, what is found is the payload of the first tag with the
id and lies inside the buffer, and without such a tag there is an error. -/
structure Sound (out : Outcome) : Prop where
  reads_inside : ∀ o ∈ out.reads, o + 4 ≤ buflen
  found : out.ret = 0 → ∃ o, FirstTag e mem buflen tagId o ∧
    out.pld = some (o + 4, lenOf (node e mem o)) ∧ o + 4 + lenOf (node e mem o) ≤ buflen
  absent : (∀ o, ¬ IsTag e mem buflen tagId o) → out.ret ≠ 0

/-- From one node to the next, with lengths rounded up in 16 bits. -/
def WalkNext (o o' : ℕ) : Prop :=
  o < buflen ∧ node e mem o ≠ 0 ∧ idOf (node e mem o) ≠ tagId ∧
    o' = o + 4 + align (lenOf (node e mem o)) % 65536

/-- An offset the walk comes to. -/
def Visits (o : ℕ) : Prop := ReflTransGen (WalkNext e mem buflen tagId) 0 o

/-- No node is cut off by the end of the buffer, and one with the id, unless it is the last word
of the buffer, is a node of the list whose payload begins below 65536 and ends in the buffer. -/
structure Fine : Prop where
  whole : ∀ o, Visits e mem buflen tagId o → o < buflen → o + 4 ≤ buflen
  fits : ∀ o, Visits e mem buflen tagId o → o + 4 < buflen → node e mem o ≠ 0 →
    idOf (node e mem o) = tagId →
    ListNode e mem buflen o ∧ o + 4 < 65536 ∧ o + 4 + lenOf (node e mem o) ≤ buflen

end

variable {e : Endian} {mem : Memory} {buflen tagId fuel datum o p : ℕ} {reads : List ℕ}
  {out : Outcome}

/-- Every round goes on by a whole node at least, so the walk ends. -/
theorem walk_isSome (h : buflen ≤ 4 * fuel + datum) :
    (walk e mem buflen tagId (fuel + 1) datum reads).isSome := by
  induction fuel generalizing datum reads with
  | zero => simp [walk, show buflen ≤ datum by omega]
  | succ fuel ih =>
    rw [walk]
    split_ifs
    · rfl
    · rfl
    · rfl
    · rfl
    · exact ih (by omega)

theorem walk_mono {fuel' : ℕ} (hle : fuel ≤ fuel')
    (h : walk e mem buflen tagId fuel datum reads = some out) :
    walk e mem buflen tagId fuel' datum reads = some out := by
  induction fuel generalizing fuel' datum reads with
  | zero => cases h
  | succ fuel ih =>
    obtain ⟨k, rfl⟩ : ∃ k, fuel' = k + 1 := ⟨fuel' - 1, by omega⟩
    rw [walk] at h ⊢
    split_ifs at h ⊢
    · exact h
    · exact h
    · exact h
    · exact h
    · exact ih (by omega) h

/-- How a walk ends: without a payload, or at a node with the id that is not the last word. -/
inductive Ends (e : Endian) (mem : Memory) (buflen tagId : ℕ) (out : Outcome) : Prop where
  | absent (hret : out.ret = eNoEnt)
  | found (o : ℕ) (hvisit : Visits e mem buflen tagId o) (hroom : o + 4 < buflen)
      (hne : node e mem o ≠ 0) (hid : idOf (node e mem o) = tagId)
      (hpld : out.pld = some ((o + 4) % 65536, lenOf (node e mem o)))

/-- All that a walk reads are nodes it comes to. -/
theorem walk_ends (hvisit : Visits e mem buflen tagId datum)
    (hreads : ∀ o ∈ reads, Visits e mem buflen tagId o ∧ o < buflen)
    (h : walk e mem buflen tagId fuel datum reads = some out) :
    (∀ o ∈ out.reads, Visits e mem buflen tagId o ∧ o < buflen) ∧
      Ends e mem buflen tagId out := by
  induction fuel generalizing datum reads with
  | zero => cases h
  | succ fuel ih =>
    rw [walk] at h
    by_cases hend : buflen ≤ datum
    · rw [if_pos hend] at h
      cases h
      exact ⟨hreads, .absent rfl⟩
    have hread : ∀ o ∈ datum :: reads, Visits e mem buflen tagId o ∧ o < buflen :=
      List.forall_mem_cons.mpr ⟨⟨hvisit, Nat.lt_of_not_le hend⟩, hreads⟩
    rw [if_neg hend] at h
    by_cases hnull : node e mem datum = 0
    · rw [if_pos hnull] at h
      cases h
      exact ⟨hread, .absent rfl⟩
    rw [if_neg hnull] at h
    by_cases hid : idOf (node e mem datum) = tagId
    · rw [if_pos hid] at h
      by_cases hlast : buflen ≤ datum + 4
      · rw [if_pos hlast] at h
        cases h
        exact ⟨hread, .absent rfl⟩
      · rw [if_neg hlast] at h
        cases h
        exact ⟨hread, .found datum hvisit (Nat.lt_of_not_le hlast) hnull hid rfl⟩
    · rw [if_neg hid] at h
      exact ih (hvisit.tail ⟨Nat.lt_of_not_le hend, hnull, hid, rfl⟩) hread h

theorem mem_reads_of_walk (h : walk e mem buflen tagId fuel datum reads = some out)
    (hmem : o ∈ reads) : o ∈ out.reads := by
  induction fuel generalizing datum reads with
  | zero => cases h
  | succ fuel ih =>
    rw [walk] at h
    split_ifs at h
    · cases h
      exact hmem
    · cases h
      exact .tail _ hmem
    · cases h
      exact .tail _ hmem
    · cases h
      exact .tail _ hmem
    · exact ih h (.tail _ hmem)

/-- A walk that ends has gone on from every node it comes to. -/
theorem Visits.walk_eq (hvisit : Visits e mem buflen tagId o)
    (h : walk e mem buflen tagId fuel 0 [] = some out) :
    ∃ fuel reads, walk e mem buflen tagId (fuel + 1) o reads = some out := by
  induction hvisit with
  | refl =>
    cases fuel with
    | zero => cases h
    | succ fuel => exact ⟨fuel, [], h⟩
  | tail _ hnext ih =>
    obtain ⟨fuel, reads, hwalk⟩ := ih
    obtain ⟨hlt, hne, hid, rfl⟩ := hnext
    rw [walk, if_neg (Nat.not_le.mpr hlt), if_neg hne, if_neg hid] at hwalk
    cases fuel with
    | zero => cases hwalk
    | succ fuel => exact ⟨fuel, _, hwalk⟩

theorem Visits.mem_reads (hvisit : Visits e mem buflen tagId o) (hlt : o < buflen)
    (h : walk e mem buflen tagId fuel 0 [] = some out) : o ∈ out.reads := by
  obtain ⟨fuel, reads, hwalk⟩ := hvisit.walk_eq h
  rw [walk, if_neg (Nat.not_le.mpr hlt)] at hwalk
  have hhead : o ∈ o :: reads := .head _
  split_ifs at hwalk
  · cases hwalk
    exact hhead
  · cases hwalk
    exact hhead
  · cases hwalk
    exact hhead
  · exact mem_reads_of_walk hwalk hhead

/-- The payload found is the one of the node with the id that the walk comes to. -/
theorem Visits.found (hvisit : Visits e mem buflen tagId o) (hroom : o + 4 < buflen)
    (hne : node e mem o ≠ 0) (hid : idOf (node e mem o) = tagId)
    (h : walk e mem buflen tagId fuel 0 [] = some out) :
    out.ret = 0 ∧ out.pld = some ((o + 4) % 65536, lenOf (node e mem o)) := by
  obtain ⟨fuel, reads, hwalk⟩ := hvisit.walk_eq h
  rw [walk, if_neg (by omega), if_neg hne, if_pos hid, if_neg (by omega)] at hwalk
  cases hwalk
  exact ⟨rfl, rfl⟩

/-- The walk comes to one node with the id at most. -/
theorem Visits.unique (ho : Visits e mem buflen tagId o) (hp : Visits e mem buflen tagId p)
    (hido : idOf (node e mem o) = tagId) (hidp : idOf (node e mem p) = tagId) : o = p := by
  have hunique : Relator.RightUnique (WalkNext e mem buflen tagId) := by
    rintro a b c ⟨-, -, -, rfl⟩ ⟨-, -, -, rfl⟩
    rfl
  rcases ReflTransGen.total_of_right_unique hunique ho hp with hop | hpo
  · rcases hop.cases_head with heq | ⟨q, hq, -⟩
    · exact heq
    · exact absurd hido hq.2.2.1
  · rcases hpo.cases_head with heq | ⟨q, hq, -⟩
    · exact heq.symm
    · exact absurd hidp hq.2.2.1

/-- Below 65536 the walk follows the list up to the first tag with the id. -/
theorem visits_of_listNode (ho : ListNode e mem buflen o) (hlt : o < 65536)
    (hfirst : ∀ p, IsTag e mem buflen tagId p → o ≤ p) : Visits e mem buflen tagId o := by
  induction ho with
  | refl => exact .refl
  | @tail p q hp hpq ih =>
    obtain ⟨hwhole, hne, rfl⟩ := hpq
    have hnot : idOf (node e mem p) ≠ tagId := by
      intro hid
      have hle := hfirst p ⟨hp, hwhole, hne, hid⟩
      omega
    have hprev : Visits e mem buflen tagId p :=
      ih (by omega) fun q hq => by
        have hle := hfirst q hq
        omega
    refine hprev.tail ⟨by omega, hne, hnot, ?_⟩
    -- the length is rounded up to less than 65536, where both ways of rounding agree
    rw [Nat.mod_eq_of_lt (by omega)]

/-- A tag with the id that the walk comes to below 65536 is the first one. -/
theorem firstTag_of_visits (hvisit : Visits e mem buflen tagId o) (hlt : o < 65536)
    (htag : IsTag e mem buflen tagId o) : FirstTag e mem buflen tagId o := by
  classical
  refine ⟨htag, ?_⟩
  have hex : ∃ p, IsTag e mem buflen tagId p := ⟨o, htag⟩
  have hleast : ∀ p, IsTag e mem buflen tagId p → Nat.find hex ≤ p := fun _ hp =>
    Nat.find_min' hex hp
  have hspec := Nat.find_spec hex
  have hle := hleast o htag
  have hsame : o = Nat.find hex :=
    hvisit.unique (visits_of_listNode hspec.listed (by omega) hleast) htag.id_eq hspec.id_eq
  rw [hsame]
  exact hleast

/-- What a call with a buffer returns. -/
def Returns (e : Endian) (mem : Memory) (buflen tagId : ℕ) (out : Outcome) : Prop :=
  ∃ fuel, routerbootTagFind e buflen tagId (some mem) fuel = some out

theorem routerbootTagFind_returns (e : Endian) (mem : Memory) (buflen tagId : ℕ) :
    ∃ out, Returns e mem buflen tagId out := by
  by_cases hzero : tagId = 0
  · exact ⟨⟨eInval, none, []⟩, 0, if_pos hzero⟩
  · have hsome : (walk e mem buflen tagId (buflen + 1) 0 []).isSome := walk_isSome (by omega)
    obtain ⟨out, hout⟩ := Option.isSome_iff_exists.mp hsome
    exact ⟨out, buflen + 1, (if_neg hzero).trans hout⟩

theorem Returns.unique {out' : Outcome} (h : Returns e mem buflen tagId out)
    (h' : Returns e mem buflen tagId out') : out = out' := by
  obtain ⟨fuel, hout⟩ := h
  obtain ⟨fuel', hout'⟩ := h'
  simp only [routerbootTagFind] at hout hout'
  split_ifs at hout hout'
  · exact Option.some.inj (hout.symm.trans hout')
  · have hmore := walk_mono (Nat.le_max_left fuel fuel') hout
    have hmore' := walk_mono (Nat.le_max_right fuel fuel') hout'
    exact Option.some.inj (hmore.symm.trans hmore')

theorem Fine.sound (hfine : Fine e mem buflen tagId)
    (h : walk e mem buflen tagId fuel 0 [] = some out) : Sound e mem buflen tagId out := by
  obtain ⟨hreads, hends⟩ := walk_ends .refl (by simp) h
  have hinside : ∀ o ∈ out.reads, o + 4 ≤ buflen := by
    intro o ho
    obtain ⟨hvisit, hlt⟩ := hreads o ho
    exact hfine.whole o hvisit hlt
  cases hends with
  | absent hret =>
    refine ⟨hinside, fun hzero => ?_, fun _ => ?_⟩
    · rw [hret] at hzero
      cases hzero
    · rw [hret]
      decide
  | found o hvisit hroom hne hid hpld =>
    obtain ⟨hlisted, hlt, hfits⟩ := hfine.fits o hvisit hroom hne hid
    have htag : IsTag e mem buflen tagId o := ⟨hlisted, by omega, hne, hid⟩
    refine ⟨hinside, fun _ => ⟨o, firstTag_of_visits hvisit (by omega) htag, ?_, hfits⟩,
      fun hnone => absurd htag (hnone o)⟩
    rw [hpld, Nat.mod_eq_of_lt hlt]

theorem Sound.fine (hsound : Sound e mem buflen tagId out)
    (h : walk e mem buflen tagId fuel 0 [] = some out) : Fine e mem buflen tagId := by
  refine ⟨fun o hvisit hlt => hsound.reads_inside o (hvisit.mem_reads hlt h),
    fun o hvisit hroom hne hid => ?_⟩
  obtain ⟨hret, hpld⟩ := hvisit.found hroom hne hid h
  obtain ⟨p, hfirst, hpld', hfits⟩ := hsound.found hret
  obtain ⟨hofs, hlen⟩ := Prod.mk.inj (Option.some.inj (hpld'.symm.trans hpld))
  have hp : p + 4 < 65536 := by
    rw [hofs]
    exact Nat.mod_lt _ (by omega)
  -- the walk comes to the first tag, which is below 65536, and so it is the one found
  have hsame : o = p :=
    hvisit.unique (visits_of_listNode hfirst.listed (by omega) hfirst.first) hid hfirst.id_eq
  rw [hsame]
  exact ⟨hfirst.listed, hp, hfits⟩

/-- A call is sound if and only if the id is zero or the walk comes only to what is fine. -/
theorem tagFind_sound_iff (e : Endian) (mem : Memory) (buflen tagId : ℕ) :
    (∃ out, Returns e mem buflen tagId out ∧ Sound e mem buflen tagId out) ↔
      tagId = 0 ∨ Fine e mem buflen tagId := by
  by_cases hzero : tagId = 0
  · refine iff_of_true ⟨⟨eInval, none, []⟩, ⟨0, if_pos hzero⟩, ?_⟩ (.inl hzero)
    exact ⟨by simp, fun h => absurd h (by decide), fun _ => by decide⟩
  rw [or_iff_right hzero]
  constructor
  · rintro ⟨out, ⟨fuel, hrun⟩, hsound⟩
    exact hsound.fine ((if_neg hzero).symm.trans hrun)
  · intro hfine
    obtain ⟨out, fuel, hrun⟩ := routerbootTagFind_returns e mem buflen tagId
    exact ⟨out, ⟨fuel, hrun⟩, hfine.sound ((if_neg hzero).symm.trans hrun)⟩

/-- A buffer with zeros behind it. -/
def ofList (b : Bytes) : Memory := fun o => b.getD o 0

theorem node_ofList {b : Bytes} (h : o + 4 ≤ b.length) : node e (ofList b) o = e.getU32 b o := by
  cases e with
  | little => rfl
  | big =>
    have hget : ∀ k < 4, b[o + k]? = some (b.getD (o + k) 0) := by
      intro k hk
      rw [List.getD_eq_getElem?_getD, List.getElem?_eq_getElem (by omega)]
      rfl
    have hword : (b.drop o).take 4 =
        [b.getD o 0, b.getD (o + 1) 0, b.getD (o + 2) 0, b.getD (o + 3) 0] := by
      apply List.ext_getElem?
      intro i
      rw [List.getElem?_take, List.getElem?_drop]
      match i with
      | 0 | 1 | 2 | 3 => exact (if_pos (by decide)).trans (hget _ (by decide))
      | i + 4 => exact if_neg (by omega)
    change getU32 _ 0 = getU32 ((b.drop o).take 4).reverse 0
    rw [hword]
    rfl

/-- On whole words the function of the soft config driver finds the same. -/
theorem tagFindLoop_eq_pld {b : Bytes} (hb : 4 ∣ b.length) (hdatum : 4 ∣ datum)
    (h : walk e (ofList b) b.length tagId fuel datum reads = some out) :
    tagFindLoop e b tagId fuel datum = out.pld := by
  induction fuel generalizing datum reads with
  | zero => cases h
  | succ fuel ih =>
    rw [walk] at h
    rw [tagFindLoop]
    by_cases hend : b.length ≤ datum
    · rw [if_pos hend] at h
      cases h
      exact if_pos hend
    rw [if_neg hend, node_ofList (by omega)] at h
    rw [if_neg hend]
    split_ifs at h with hnull hid hlast
    · cases h
      exact if_pos hnull
    · cases h
      exact (if_neg hnull).trans ((if_pos hid).trans (if_pos hlast))
    · cases h
      exact (if_neg hnull).trans ((if_pos hid).trans (if_neg hlast))
    · refine (if_neg hnull).trans ((if_neg hid).trans (ih ?_ h))
      omega

theorem routerbootTagFind_eq_pld {b : Bytes} (hb : 4 ∣ b.length) (hid : tagId ≠ 0)
    (h : Returns e (ofList b) b.length tagId out) :
    Mikrotik.routerbootTagFind e b tagId = out.pld := by
  obtain ⟨fuel, hrun⟩ := h
  replace hrun := (if_neg hid).symm.trans hrun
  cases hlen : b.length with
  | zero =>
    cases fuel with
    | zero => cases hrun
    | succ fuel =>
      rw [walk, if_pos (by omega)] at hrun
      cases hrun
      rw [Mikrotik.routerbootTagFind, hlen]
      rfl
  | succ n =>
    have hsome : (walk e (ofList b) b.length tagId (n + 1) 0 []).isSome := walk_isSome (by omega)
    obtain ⟨out', hout'⟩ := Option.isSome_iff_exists.mp hsome
    have hsame : out' = out :=
      Returns.unique ⟨n + 1, (if_neg hid).trans hout'⟩ ⟨fuel, (if_neg hid).trans hrun⟩
    rw [Mikrotik.routerbootTagFind, hlen, ← hsame]
    exact tagFindLoop_eq_pld hb (Nat.dvd_zero 4) hout'

theorem tagFind_eq_pld_short :
    Mikrotik.routerbootTagFind .little [1, 0, 4, 0, 9, 8, 7, 6] 1 = some (4, 4) := by
  have hrun : Returns .little (ofList [1, 0, 4, 0, 9, 8, 7, 6]) 8 1 ⟨0, some (4, 4), [0]⟩ :=
    ⟨9, by decide⟩
  exact routerbootTagFind_eq_pld (by decide) (by decide) hrun

/-- A single tag whose payload of 100 bytes would begin at the second word of two. -/
def longTag : Memory := ofList [1, 0, 100, 0, 0, 0, 0, 0]

/-- What is found may lie outside the buffer. -/
theorem not_sound_longTag : ¬ ∀ (e : Endian) (mem : Memory) (buflen tagId : ℕ), tagId < 65536 →
    ∃ out, Returns e mem buflen tagId out ∧ Sound e mem buflen tagId out := by
  intro h
  rcases (tagFind_sound_iff .little longTag 8 1).mp (h .little longTag 8 1 (by decide)) with hzero | hfine
  · cases hzero
  · obtain ⟨-, -, hfits⟩ := hfine.fits 0 .refl (by decide) (by decide) (by decide)
    exact absurd hfits (by decide)

end NeonWrt.Mikrotik.TagWalk
