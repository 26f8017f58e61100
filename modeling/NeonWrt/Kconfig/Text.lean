import NeonWrt.Kconfig.Operators
import Mathlib.Data.List.Sort

/-!
# Configurations as texts

`kconfig.pl` loads configurations from files, computes the expression on its command line and
prints the result. A line sets an option or says that it is not set; the name of the option is the
shortest text that a match leaves for it. The prefix of the names is `CONFIG_` if no switch
changes it; it is a text here, without the special characters of a pattern.
-/

namespace NeonWrt.Kconfig

open Lib

/-- What stands behind a prefix. -/
def behind (pre t : Bytes) : Option Bytes :=
  if pre.isPrefixOf t then some (t.drop pre.length) else none

/-- The pattern `(.+?)` with `sep` behind it, and behind that a text that is accepted. -/
def lazyMatch (sep : Bytes) (accepted : Bytes → Bool) (t : Bytes) : Option (Bytes × Bytes) :=
  ((List.range t.length).find? fun i =>
    sep.isPrefixOf (t.drop (i + 1)) && accepted (t.drop (i + 1 + sep.length))).map fun i =>
      (t.take (i + 1), t.drop (i + 1 + sep.length))

/-- The name and the value that a line gives to `set_config`. Nothing comes of a comment, nor of a
line that only causes a warning. -/
def readLine (pfx line : Bytes) : Option (Bytes × Bytes) :=
  match (behind pfx line).bind (lazyMatch (ascii "=") (· ≠ [])) with
  | some e => some e
  | none =>
    ((behind (ascii "# " ++ pfx) line).bind (lazyMatch (ascii " is not set") fun _ => true)).map
      fun e => (e.1, undef)

/-- The body of the loop over the lines. -/
def loadLine (pfx : Bytes) (modPlus : Bool) (config : Config) (line : Bytes) : Config :=
  match readLine pfx line with
  | some e => setConfig config e.1 e.2 modPlus
  | none => config

/-- `load_config`, of the contents of a file -/
def loadConfig (pfx text : Bytes) (modPlus : Bool) : Config :=
  (text.splitOn 10).foldl (loadLine pfx modPlus) ∅

/-- The line of an option, without its newline. -/
def cfgline (pfx name val : Bytes) : Bytes :=
  if val = undef ∨ val = ascii "n" then ascii "# " ++ pfx ++ name ++ ascii " is not set"
  else pfx ++ name ++ ascii "=" ++ val

/-- `print_cfgline` -/
def printCfgline (pfx name val : Bytes) : Bytes := cfgline pfx name val ++ [10]

/-- `dump_config` -/
def dumpConfig (pfx : Bytes) (cfg : Config) : Bytes :=
  (cfg.keys.mergeSort (fun a b => decide (a ≤ b))).flatMap fun k =>
    printCfgline pfx k ((cfg.get? k).getD [])

/-- Why the program dies. -/
inductive Die
  | parse
  | open
  | option
  deriving DecidableEq, Repr

/-- The operator an argument stands for. -/
def operator (arg : Bytes) : Option Operator :=
  if arg = ascii "&" then some .and
  else if (ascii "+").isPrefixOf arg then some .add
  else if (ascii "m+").isPrefixOf arg then some .addMod
  else if arg = ascii ">" then some .diff
  else if arg = ascii ">+" then some .diffNew
  else if arg = ascii "-" then some .sub
  else none

section Program

variable (files : Bytes → Option Bytes) (matched : Bytes → Bytes → Bool) (pfx : Bytes)

/-- `parse_expr`: the configuration and the arguments that are left. -/
def parseExpr (modPlus : Bool) :
    (args : List Bytes) → Except Die (Config × { rest : List Bytes // rest.length < args.length })
  | [] => .error .parse
  | arg :: args =>
    if isTrue arg then
      match operator arg with
      | some op => do
        let r1 ← parseExpr false args
        let r2 ← parseExpr (op = .addMod) r1.2
        return (op.apply matched r1.1 r2.1,
          ⟨r2.2, (r2.2.2.trans r1.2.2).trans (Nat.lt_succ_self _)⟩)
      | none =>
        match files arg with
        | none => .error .open
        | some text => return (loadConfig pfx text modPlus, ⟨args, Nat.lt_succ_self _⟩)
    else .error .parse
  termination_by args => args.length
  decreasing_by
    · exact Nat.lt_succ_self _
    · exact r1.2.2.trans (Nat.lt_succ_self _)

end Program

/-- The switches: the prefix, and the arguments behind them. -/
def switches (pfx : Bytes) : List Bytes → Except Die (Bytes × List Bytes)
  | [] => .ok (pfx, [])
  | [arg] =>
    if arg.head? = some 45 ∧ arg.tail ≠ [] ∧ arg.tail.all (fun c => isalnum c || c == 95) then
      if arg = ascii "-n" then .ok ([], [])
      else .error .option
    else .ok (pfx, [arg])
  | arg :: next :: args =>
    if arg.head? = some 45 ∧ arg.tail ≠ [] ∧ arg.tail.all (fun c => isalnum c || c == 95) then
      if arg = ascii "-n" then switches [] (next :: args)
      else if arg = ascii "-p" then switches next args
      else .error .option
    else .ok (pfx, arg :: next :: args)

/-- The program: what it prints, and if it dies behind that for an argument that is left. -/
def kconfig (files : Bytes → Option Bytes) (matched : Bytes → Bytes → Bool) (argv : List Bytes) :
    Except Die (Bytes × Bool) := do
  let (pfx, args) ← switches (ascii "CONFIG_") argv
  let (cfg, rest) ← parseExpr files matched pfx false args
  return (dumpConfig pfx cfg, rest.1.head?.any isTrue)

/-- A character of the names of options. -/
def isNameChar (c : UInt8) : Bool := isalnum c || c == 95

/-- An entry whose line is read back. -/
structure Readable (name val : Bytes) : Prop where
  name_ne : name ≠ []
  name : ∀ c ∈ name, isNameChar c = true
  val_ne : val ≠ []
  val : 10 ∉ val

/-- `n` is loaded as not set. -/
def nAsUnset (v : Bytes) : Bytes := if v = ascii "n" then undef else v

section Lines

variable {pfx name val t line sep : Bytes} {accepted : Bytes → Bool}

theorem isNameChar_ne {c : UInt8} (h : isNameChar c = true) : c ≠ 10 ∧ c ≠ 32 ∧ c ≠ 61 := by
  refine ⟨?_, ?_, ?_⟩ <;>
  · rintro rfl
    exact absurd h (by decide)

theorem behind_append (pre t : Bytes) : behind pre (pre ++ t) = some t := by
  rw [behind, if_pos (List.isPrefixOf_iff_prefix.mpr (List.prefix_append _ _)), List.drop_left]

theorem behind_eq_some {pre rest : Bytes} (h : behind pre t = some rest) : t = pre ++ rest := by
  rw [behind] at h
  split_ifs at h with hpre
  obtain ⟨r, rfl⟩ := List.isPrefixOf_iff_prefix.mp hpre
  rw [List.drop_left] at h
  rw [Option.some.inj h]

theorem lazyMatch_eq_some {name rest : Bytes} (h : lazyMatch sep accepted t = some (name, rest)) :
    name ≠ [] ∧ t = name ++ sep ++ rest ∧ accepted rest = true := by
  obtain ⟨i, hfind, heq⟩ := Option.map_eq_some_iff.mp h
  obtain ⟨rfl, rfl⟩ := Prod.mk.inj heq
  have hi : i < t.length := by simpa using List.mem_of_find?_eq_some hfind
  have hfound := List.find?_some hfind
  rw [Bool.and_eq_true] at hfound
  obtain ⟨hpre, hacc⟩ := hfound
  obtain ⟨r, hr⟩ := List.isPrefixOf_iff_prefix.mp hpre
  have hdrop : t.drop (i + 1 + sep.length) = r := by
    rw [← List.drop_drop, ← hr, List.drop_left]
  refine ⟨?_, ?_, hacc⟩
  · intro hnil
    have := congrArg List.length hnil
    rw [List.length_take, List.length_nil] at this
    omega
  · rw [hdrop, List.append_assoc, hr, List.take_append_drop]

/-- A separator that starts with a character foreign to the name is found behind it. -/
theorem lazyMatch_append {d : UInt8} {ds rest : Bytes} (hne : name ≠ []) (hd : d ∉ name)
    (hrest : accepted rest = true) :
    lazyMatch (d :: ds) accepted (name ++ (d :: ds) ++ rest) = some (name, rest) := by
  have hlen : name.length - 1 + 1 = name.length :=
    Nat.sub_add_cancel (List.length_pos_iff.mpr hne)
  have hdrop : (name ++ (d :: ds) ++ rest).drop name.length = (d :: ds) ++ rest := by
    rw [List.append_assoc, List.drop_left]
  have hbehind : (name ++ (d :: ds) ++ rest).drop (name.length + (d :: ds).length) = rest := by
    rw [← List.drop_drop, hdrop, List.drop_left]
  have hfind : (List.range (name ++ (d :: ds) ++ rest).length).find? (fun i =>
      (d :: ds).isPrefixOf ((name ++ (d :: ds) ++ rest).drop (i + 1)) &&
        accepted ((name ++ (d :: ds) ++ rest).drop (i + 1 + (d :: ds).length))) =
      some (name.length - 1) := by
    rw [List.find?_range_eq_some]
    refine ⟨?_, ?_, fun j hj => ?_⟩
    · rw [hlen, hdrop, hbehind, hrest, Bool.and_true]
      exact List.isPrefixOf_iff_prefix.mpr (List.prefix_append _ _)
    · simp only [List.mem_range, List.length_append, List.length_cons]
      omega
    · -- an earlier place still lies in the name
      have hj' : j + 1 < name.length := by omega
      have hhead : (name ++ (d :: ds) ++ rest).drop (j + 1) =
          name[j + 1] :: (name.drop (j + 2) ++ (d :: ds) ++ rest) := by
        rw [List.append_assoc, List.drop_append_of_le_length hj'.le, List.drop_eq_getElem_cons hj',
          List.cons_append, List.append_assoc]
      have hneq : (d == name[j + 1]) = false := by
        rw [beq_eq_false_iff_ne]
        rintro rfl
        exact hd (List.getElem_mem hj')
      rw [hhead, List.isPrefixOf_cons_cons, hneq]
      rfl
  rw [lazyMatch, hfind, Option.map_some, hlen, hbehind, List.append_assoc, List.take_left]

theorem lazyMatch_eq_none {d : UInt8} {ds : Bytes} (hd : d ∉ t) :
    lazyMatch (d :: ds) accepted t = none := by
  cases h : lazyMatch (d :: ds) accepted t with
  | none => rfl
  | some e =>
    obtain ⟨-, rfl, -⟩ := lazyMatch_eq_some h
    exact absurd (by simp) hd

/-- A line that is printed says what it was printed for. -/
theorem readLine_cfgline (hpfx : ∀ c ∈ pfx, isNameChar c = true) (h : Readable name val) :
    readLine pfx (cfgline pfx name val) = some (name, nAsUnset val) := by
  have hname : ∀ c ∈ name, c ≠ 10 ∧ c ≠ 32 ∧ c ≠ 61 := fun c hc => isNameChar_ne (h.name c hc)
  have hunset : readLine pfx (ascii "# " ++ pfx ++ name ++ ascii " is not set") =
      some (name, undef) := by
    have hline : (61 : UInt8) ∉ ascii "# " ++ pfx ++ name ++ ascii " is not set" := by
      simp only [List.mem_append, not_or]
      refine ⟨⟨⟨by decide, fun hc => ?_⟩, fun hc => (hname _ hc).2.2 rfl⟩, by decide⟩
      exact (isNameChar_ne (hpfx _ hc)).2.2 rfl
    have hfirst : (behind pfx (ascii "# " ++ pfx ++ name ++ ascii " is not set")).bind
        (lazyMatch (ascii "=") (· ≠ [])) = none := by
      cases hb : behind pfx (ascii "# " ++ pfx ++ name ++ ascii " is not set") with
      | none => rfl
      | some rest =>
        have hrest : (61 : UInt8) ∉ rest := by
          intro hmem
          refine hline ?_
          rw [behind_eq_some hb]
          exact List.mem_append_right _ hmem
        exact (lazyMatch_eq_none hrest : lazyMatch [61] (· ≠ []) rest = none)
    have hmatch : lazyMatch (ascii " is not set") (fun _ => true)
        (name ++ ascii " is not set" ++ []) = some (name, []) :=
      lazyMatch_append h.name_ne (fun hc => (hname _ hc).2.1 rfl) rfl
    rw [List.append_nil] at hmatch
    rw [readLine, hfirst, List.append_assoc (ascii "# " ++ pfx), behind_append]
    simp only [Option.bind_some, hmatch, Option.map_some]
  rw [cfgline, nAsUnset]
  split_ifs with hval hn hn
  · exact hunset
  · rw [hval.resolve_right hn]
    exact hunset
  · exact absurd (Or.inr hn) hval
  · have hmatch : lazyMatch (ascii "=") (· ≠ []) (name ++ ascii "=" ++ val) = some (name, val) :=
      lazyMatch_append h.name_ne (fun hc => (hname _ hc).2.2 rfl) (by simpa using h.val_ne)
    rw [readLine, List.append_assoc pfx, List.append_assoc pfx, behind_append]
    simp only [Option.bind_some, hmatch]

theorem newline_notMem_cfgline (hpfx : ∀ c ∈ pfx, isNameChar c = true) (h : Readable name val) :
    10 ∉ cfgline pfx name val := by
  have hp : (10 : UInt8) ∉ pfx := fun hc => (isNameChar_ne (hpfx _ hc)).1 rfl
  have hn : (10 : UInt8) ∉ name := fun hc => (isNameChar_ne (h.name _ hc)).1 rfl
  rw [cfgline]
  split_ifs
  · simp only [List.mem_append, not_or]
    exact ⟨⟨⟨by decide, hp⟩, hn⟩, by decide⟩
  · simp only [List.mem_append, not_or]
    exact ⟨⟨⟨hp, hn⟩, by decide⟩, h.val⟩

theorem readLine_eq_some {e : Bytes × Bytes} (hline : 10 ∉ line) (h : readLine pfx line = some e) :
    e.1 ≠ [] ∧ e.2 ≠ [] ∧ 10 ∉ e.2 := by
  rw [readLine] at h
  split at h
  · next e' hset =>
    obtain rfl := Option.some.inj h
    obtain ⟨rest, hb, hmatch⟩ := Option.bind_eq_some_iff.mp hset
    obtain ⟨hname, hrest, hval⟩ := lazyMatch_eq_some hmatch
    refine ⟨hname, by simpa using hval, fun hmem => hline ?_⟩
    rw [behind_eq_some hb, hrest]
    exact List.mem_append_right _ (List.mem_append_right _ hmem)
  · obtain ⟨e', hmatch, rfl⟩ := Option.map_eq_some_iff.mp h
    obtain ⟨rest, -, hmatch⟩ := Option.bind_eq_some_iff.mp hmatch
    have hne : undef ≠ [] := by decide
    have hval : 10 ∉ undef := by decide
    exact ⟨(lazyMatch_eq_some hmatch).1, hne, hval⟩

end Lines

section Files

variable {pfx : Bytes} {modPlus : Bool}

theorem readLine_nil (pfx : Bytes) : readLine pfx [] = none := by
  have hfirst : (behind pfx []).bind (lazyMatch (ascii "=") (· ≠ [])) = none := by
    cases hb : behind pfx [] with
    | none => rfl
    | some rest =>
      have hnil : rest = [] := (List.append_eq_nil_iff.mp (behind_eq_some hb).symm).2
      rw [hnil]
      rfl
  rw [readLine, hfirst]
  rfl

theorem newline_notMem {t : Bytes} : ∀ line ∈ t.splitOn 10, (10 : UInt8) ∉ line := by
  induction t with
  | nil => simp
  | cons c t ih =>
    intro line hline
    rw [List.splitOn_cons_eq_if_modifyHead] at hline
    split_ifs at hline with hc
    · rcases List.mem_cons.mp hline with rfl | hline
      · simp
      · exact ih line hline
    · obtain ⟨l, ls, hls⟩ := List.exists_cons_of_ne_nil (List.splitOn_ne_nil 10 t)
      rw [hls] at hline ih
      rcases List.mem_cons.mp hline with rfl | hline
      · simp [ih l (by simp), Ne.symm (by simpa using hc : c ≠ 10)]
      · exact ih line (List.mem_cons_of_mem _ hline)

theorem splitOn_lines {ls : List Bytes} (h : ∀ l ∈ ls, (10 : UInt8) ∉ l) :
    (ls.flatMap (· ++ [10])).splitOn 10 = ls ++ [[]] := by
  induction ls with
  | nil => rfl
  | cons l ls ih =>
    rw [List.flatMap_cons, List.append_assoc, List.singleton_append, List.splitOn_append_cons_self,
      List.splitOn_eq_singleton (h l (by simp)), ih fun l' hl' => h l' (by simp [hl'])]
    rfl

/-- Entries of which no name comes twice are all set. -/
theorem get?_foldl_setConfig {l : List (Bytes × Bytes)} (hnodup : (l.map (·.1)).Nodup) {c : Config}
    (hnew : ∀ e ∈ l, c.get? e.1 = none) (k : Bytes) :
    (l.foldl (fun c e => setConfig c e.1 e.2 modPlus) c).get? k =
      ((l.find? (·.1 = k)).map (·.2)).or (c.get? k) := by
  induction l generalizing c with
  | nil => rfl
  | cons e l ih =>
    rw [List.map_cons, List.nodup_cons] at hnodup
    have hset : ∀ j, (setConfig c e.1 e.2 modPlus).get? j =
        if j = e.1 then some e.2 else c.get? j := by
      intro j
      simp [get?_setConfig, hnew e (by simp)]
    have hrest : ∀ e' ∈ l, (setConfig c e.1 e.2 modPlus).get? e'.1 = none := by
      intro e' he'
      rw [hset, if_neg fun heq => hnodup.1 (List.mem_map.mpr ⟨e', he', heq⟩)]
      exact hnew e' (by simp [he'])
    rw [List.foldl_cons, ih hnodup.2 hrest, List.find?_cons, hset]
    by_cases he : e.1 = k
    · have hnone : l.find? (·.1 = k) = none := by
        rw [List.find?_eq_none]
        intro e' he' heq
        exact hnodup.1 (List.mem_map.mpr ⟨e', he', (by simpa using heq : e'.1 = k).trans he.symm⟩)
      simp [hnone, he]
    · simp [he, Ne.symm he]

theorem foldl_loadLine_cfgline (hpfx : ∀ c ∈ pfx, isNameChar c = true) {l : List (Bytes × Bytes)}
    (h : ∀ e ∈ l, Readable e.1 e.2) (c : Config) :
    (l.map fun e => cfgline pfx e.1 e.2).foldl (loadLine pfx modPlus) c =
      (l.map fun e => (e.1, nAsUnset e.2)).foldl (fun c e => setConfig c e.1 e.2 modPlus) c := by
  induction l generalizing c with
  | nil => rfl
  | cons e l ih =>
    rw [List.map_cons, List.foldl_cons, loadLine, readLine_cfgline hpfx (h e (by simp)),
      ih fun e' he' => h e' (by simp [he'])]
    rfl

/-- A configuration that is printed and loaded again has its values back, with `n` as not set. -/
theorem get?_loadConfig_dumpConfig (hpfx : ∀ c ∈ pfx, isNameChar c = true) {cfg : Config}
    (h : ∀ k v, cfg.get? k = some v → Readable k v) (modPlus : Bool) (k : Bytes) :
    (loadConfig pfx (dumpConfig pfx cfg) modPlus).get? k = (cfg.get? k).map nAsUnset := by
  set ks := cfg.keys.mergeSort (fun a b => decide (a ≤ b)) with hks
  have hperm : ks.Perm cfg.keys := List.mergeSort_perm _ _
  set l := ks.map fun k => (k, (cfg.get? k).getD []) with hl
  have hread : ∀ e ∈ l, Readable e.1 e.2 := by
    intro e he
    obtain ⟨j, hj, rfl⟩ := List.mem_map.mp he
    obtain ⟨v, hv⟩ := Option.isSome_iff_exists.mp
      (Table.mem_keys_iff_isSome.mp (hperm.mem_iff.mp hj))
    have := h j v hv
    simpa [hv] using this
  have hdump : dumpConfig pfx cfg =
      (l.map fun e => cfgline pfx e.1 e.2).flatMap (· ++ [10]) := by
    rw [dumpConfig, ← hks, hl, List.map_map, List.flatMap_map]
    rfl
  have hlines : ∀ t ∈ l.map (fun e => cfgline pfx e.1 e.2), (10 : UInt8) ∉ t := by
    intro t ht
    obtain ⟨e, he, rfl⟩ := List.mem_map.mp ht
    exact newline_notMem_cfgline hpfx (hread e he)
  have hnodup : ((l.map fun e => (e.1, nAsUnset e.2)).map (·.1)).Nodup := by
    have hkeys : (l.map fun e => (e.1, nAsUnset e.2)).map (·.1) = ks := by
      rw [hl, List.map_map, List.map_map]
      exact List.map_id ks
    rw [hkeys]
    exact hperm.nodup_iff.mpr cfg.nodup
  rw [loadConfig, hdump, splitOn_lines hlines, List.foldl_append, foldl_loadLine_cfgline hpfx hread,
    List.foldl_cons, List.foldl_nil, loadLine, readLine_nil,
    get?_foldl_setConfig hnodup fun _ _ => rfl, Table.get?_empty, Option.or_none]
  cases hget : cfg.get? k with
  | some v =>
    have hk : k ∈ ks := hperm.mem_iff.mpr (Table.mem_keys_iff_isSome.mpr (by simp [hget]))
    have hmem : (k, nAsUnset v) ∈ l.map fun e => (e.1, nAsUnset e.2) := by
      refine List.mem_map.mpr ⟨(k, v), List.mem_map.mpr ⟨k, hk, ?_⟩, rfl⟩
      rw [hget]
      rfl
    rw [Table.find?_of_mem hnodup hmem]
    rfl
  | none =>
    rw [List.find?_eq_none.mpr]
    · rfl
    · intro e he heq
      obtain ⟨e', he', rfl⟩ := List.mem_map.mp he
      obtain ⟨j, hj, rfl⟩ := List.mem_map.mp he'
      have hjk : j = k := by simpa using heq
      have := Table.mem_keys_iff_isSome.mp (hperm.mem_iff.mp hj)
      rw [hjk, hget] at this
      cases this

theorem entry_of_loadConfig {text k v : Bytes} (h : (loadConfig pfx text modPlus).get? k = some v) :
    k ≠ [] ∧ v ≠ [] ∧ 10 ∉ v := by
  have hfold : ∀ (lines : List Bytes) (c : Config), (∀ line ∈ lines, 10 ∉ line) →
      (∀ k v, c.get? k = some v → k ≠ [] ∧ v ≠ [] ∧ 10 ∉ v) →
      ∀ k v, (lines.foldl (loadLine pfx modPlus) c).get? k = some v →
        k ≠ [] ∧ v ≠ [] ∧ 10 ∉ v := by
    intro lines
    induction lines with
    | nil => exact fun _ _ hc => hc
    | cons line lines ih =>
      intro c hlines hc
      refine ih _ (fun line' hline' => hlines line' (by simp [hline'])) ?_
      intro k v hget
      rw [loadLine] at hget
      cases hread : readLine pfx line with
      | none =>
        rw [hread] at hget
        exact hc k v hget
      | some e =>
        rw [hread, get?_setConfig] at hget
        split_ifs at hget with hk
        · obtain rfl := Option.some.inj hget
          rw [hk.1]
          exact readLine_eq_some (hlines line (by simp)) hread
        · exact hc k v hget
  refine hfold _ ∅ (fun line hline => ?_) (fun k v hget => by simp at hget) k v h
  exact newline_notMem line hline

end Files

/-- A configuration loaded from a file whose options have names of letters, digits and `_`. -/
structure Loaded (pfx : Bytes) (c : Config) : Prop where
  file : ∃ text modPlus, c = loadConfig pfx text modPlus
  names : ∀ k ∈ c.keys, ∀ ch ∈ k, isNameChar ch = true

theorem Loaded.readable {pfx k v : Bytes} {c : Config} (h : Loaded pfx c) (hget : c.get? k = some v) :
    Readable k v := by
  have hk : k ∈ c.keys := Table.mem_keys_iff_isSome.mpr (by simp [hget])
  obtain ⟨text, modPlus, rfl⟩ := h.file
  obtain ⟨hname, hval, hline⟩ := entry_of_loadConfig hget
  exact ⟨hname, h.names k hk, hval, hline⟩

/-- The value of a key in `A m+ B`: that of `A` if it is `y` or `B` has none but `#undef`, and
otherwise that of `B`. -/
def modValue : Option Bytes → Option Bytes → Option Bytes
  | some a, b => if a = yes ∨ b = none ∨ b = some undef then some a else b
  | none, b => b

/-- The laws of two configurations. -/
structure Algebra (matched : Bytes → Bytes → Bool) (pfx : Bytes) (A B : Config) : Prop where
  /-- `A & B` and `A > B` have no option in common. -/
  disjoint : ∀ k, (configAnd A B).get? k = none ∨ (configDiff A B false).get? k = none
  /-- Together they are `B`. -/
  union : ∀ k, ((configAnd A B).get? k).or ((configDiff A B false).get? k) = B.get? k
  /-- `A + (A > B)` has the values of `B`, and those of `A` elsewhere. -/
  restore : ∀ k, (configAdd A (configDiff A B false) false).get? k = (B.get? k).or (A.get? k)
  /-- `A m+ B`. -/
  modPlus : ∀ k, (configAdd A B true).get? k = modValue (A.get? k) (B.get? k)
  /-- What is printed is loaded again. -/
  reload : ∀ r, Result matched (fun c => c = A ∨ c = B) r → ∀ modPlus k,
    (loadConfig pfx (dumpConfig pfx r) modPlus).get? k = (r.get? k).map nAsUnset

section Laws

variable {matched : Bytes → Bytes → Bool} {pfx : Bytes} {A B : Config}

/-- The laws hold unless an option has the value `0` in the first configuration and `0` or
`is not set` in the second. -/
theorem algebra_iff (matched : Bytes → Bytes → Bool) (hpfx : ∀ c ∈ pfx, isNameChar c = true)
    (hA : Loaded pfx A) (hB : Loaded pfx B) :
    Algebra matched pfx A B ↔ ∀ k, A.get? k = some (ascii "0") →
      B.get? k ≠ some (ascii "0") ∧ B.get? k ≠ some undef := by
  have hzero : isTrue (ascii "0") = false := rfl
  have htrue : ∀ {c : Config} {k v}, Loaded pfx c → c.get? k = some v → v ≠ ascii "0" →
      isTrue v = true := by
    intro c k v hc hget hv
    simp [isTrue, hv, (hc.readable hget).val_ne]
  constructor
  · intro h k hk
    constructor
    · intro hboth
      have := h.union k
      rw [get?_configAnd, get?_configDiff, hk, hboth] at this
      simp [hzero] at this
    · intro hunset
      have := h.modPlus k
      rw [get?_configAddMod, hk, hunset] at this
      simp [hzero, modValue] at this
      exact absurd this (by decide)
  · intro h
    refine ⟨fun k => ?_, fun k => ?_, fun k => ?_, fun k => ?_, fun r hr modPlus k => ?_⟩
    · rw [get?_configAnd, get?_configDiff]
      by_cases heq : A.get? k = B.get? k
      · exact Or.inr (if_pos heq)
      · exact Or.inl (if_neg fun hand => heq hand.2)
    · rw [get?_configAnd, get?_configDiff]
      by_cases heq : A.get? k = B.get? k
      · rw [if_pos heq, Option.or_none]
        cases hb : B.get? k with
        | none => simp
        | some v =>
          have hv : v ≠ ascii "0" := by
            rintro rfl
            exact (h k (heq.trans hb)).1 hb
          rw [if_pos ⟨htrue hB hb hv, heq.trans hb⟩]
      · rw [if_neg (fun hand => heq hand.2), if_neg heq, Option.none_or]
    · rw [get?_configAdd, get?_configDiff]
      split_ifs with heq
      · rw [Option.none_or, heq, Option.or_self]
      · rfl
    · rw [get?_configAddMod]
      cases ha : A.get? k with
      | none => simp [modValue]
      | some a =>
        by_cases hz : a = ascii "0"
        · have hne := (h k (by rw [ha, hz])).2
          have hyes : ascii "0" ≠ yes := by decide
          subst hz
          cases hb : B.get? k with
          | none => simp [modValue]
          | some b =>
            rw [hb] at hne
            simp [modValue, hzero, hyes, hne]
        · have := htrue hA ha hz
          cases hb : B.get? k with
          | none => simp [modValue, this]
          | some b => simp [modValue, this]
    · refine get?_loadConfig_dumpConfig hpfx (hr.forall_entries ?_) modPlus k
      rintro c (rfl | rfl) k v hget
      · exact hA.readable hget
      · exact hB.readable hget

/-- An option that is a module in one configuration and built in in the other. -/
theorem algebra_module : Algebra (fun _ _ => false) (ascii "CONFIG_")
      (loadConfig (ascii "CONFIG_") (ascii "CONFIG_X=m\n") false)
      (loadConfig (ascii "CONFIG_") (ascii "CONFIG_X=y\n") false) ↔
    ∀ k, (loadConfig (ascii "CONFIG_") (ascii "CONFIG_X=m\n") false).get? k = some (ascii "0") →
      (loadConfig (ascii "CONFIG_") (ascii "CONFIG_X=y\n") false).get? k ≠ some (ascii "0") ∧
        (loadConfig (ascii "CONFIG_") (ascii "CONFIG_X=y\n") false).get? k ≠ some undef :=
  algebra_iff (fun _ _ => false) (by decide +kernel)
    ⟨⟨_, _, rfl⟩, by decide +kernel⟩ ⟨⟨_, _, rfl⟩, by decide +kernel⟩

/-- `CONFIG_X=0` is in both configurations, and neither in what they share nor in what is new. -/
theorem not_algebra :
    (loadConfig (ascii "CONFIG_") (ascii "CONFIG_X=0\n") false).get? (ascii "X") =
        some (ascii "0") ∧
      ¬Algebra (fun _ _ => false) (ascii "CONFIG_")
        (loadConfig (ascii "CONFIG_") (ascii "CONFIG_X=0\n") false)
        (loadConfig (ascii "CONFIG_") (ascii "CONFIG_X=0\n") false) := by
  refine ⟨by decide +kernel, fun h => ?_⟩
  have := h.union (ascii "X")
  exact absurd this (by decide +kernel)

end Laws

section Output

variable {files : Bytes → Option Bytes} {matched : Bytes → Bytes → Bool} {pfx : Bytes}

/-- Both parts of a computation that succeeds do. -/
theorem exists_of_bind {α β : Type} {x : Except Die α} {f : α → Except Die β} {b : β}
    (h : x >>= f = .ok b) : ∃ a, x = .ok a ∧ f a = .ok b := by
  cases x with
  | error d => cases h
  | ok a => exact ⟨a, rfl, h⟩

/-- The expression of the command line is computed from files. -/
theorem parseExpr_result {modPlus : Bool} {args : List Bytes}
    {r : Config × { rest : List Bytes // rest.length < args.length }}
    (h : parseExpr files matched pfx modPlus args = .ok r) :
    Result matched
      (fun c => ∃ name text modPlus, files name = some text ∧ c = loadConfig pfx text modPlus)
      r.1 := by
  induction modPlus, args using parseExpr.induct files with
  | case1 modPlus =>
    rw [parseExpr] at h
    cases h
  | case2 modPlus arg args harg op hop ih1 ih2 =>
    rw [parseExpr, if_pos harg] at h
    simp only [hop] at h
    obtain ⟨r1, h1, h⟩ := exists_of_bind h
    obtain ⟨r2, h2, h⟩ := exists_of_bind h
    cases h
    exact .apply op (ih1 h1) (ih2 r1 h2)
  | case3 modPlus arg args harg hop hfile =>
    rw [parseExpr, if_pos harg] at h
    simp only [hop, hfile] at h
    cases h
  | case4 modPlus arg args harg hop text hfile =>
    rw [parseExpr, if_pos harg] at h
    simp only [hop, hfile] at h
    cases h
    exact .leaf ⟨arg, text, modPlus, hfile, rfl⟩
  | case5 modPlus arg args harg =>
    rw [parseExpr, if_neg harg] at h
    cases h

/-- What the program prints is a result of its expression, and loaded again as that. -/
theorem kconfig_output {argv args : List Bytes} {printed : Bytes} {died : Bool}
    (hswitches : switches (ascii "CONFIG_") argv = .ok (pfx, args))
    (hpfx : ∀ c ∈ pfx, isNameChar c = true)
    (hnames : ∀ name text, files name = some text → ∀ modPlus,
      ∀ k ∈ (loadConfig pfx text modPlus).keys, ∀ c ∈ k, isNameChar c = true)
    (h : kconfig files matched argv = .ok (printed, died)) :
    ∃ cfg, printed = dumpConfig pfx cfg ∧ ∀ modPlus k,
      (loadConfig pfx printed modPlus).get? k = (cfg.get? k).map nAsUnset := by
  obtain ⟨s, hs, h⟩ := exists_of_bind h
  rw [hswitches] at hs
  cases hs
  obtain ⟨r, hparse, h⟩ := exists_of_bind h
  cases h
  refine ⟨r.1, rfl, get?_loadConfig_dumpConfig hpfx ((parseExpr_result hparse).forall_entries ?_)⟩
  rintro c ⟨name, text, modPlus, hfile, rfl⟩ k v hget
  exact Loaded.readable ⟨⟨text, modPlus, rfl⟩, hnames name text hfile modPlus⟩ hget

/-- A file with one option is printed as it is. -/
theorem kconfig_output_module : ∃ cfg,
    ascii "CONFIG_X=m\n" = dumpConfig (ascii "CONFIG_") cfg ∧ ∀ modPlus k,
      (loadConfig (ascii "CONFIG_") (ascii "CONFIG_X=m\n") modPlus).get? k =
        (cfg.get? k).map nAsUnset := by
  have hparse : parseExpr (fun _ => some (ascii "CONFIG_X=m\n")) (fun _ _ => false)
      (ascii "CONFIG_") false [ascii "a"] =
        .ok (loadConfig (ascii "CONFIG_") (ascii "CONFIG_X=m\n") false, ⟨[], by decide⟩) := by
    rw [parseExpr, if_pos (by decide)]
    rfl
  have hrun : kconfig (fun _ => some (ascii "CONFIG_X=m\n")) (fun _ _ => false) [ascii "a"] =
      .ok (dumpConfig (ascii "CONFIG_") (loadConfig (ascii "CONFIG_") (ascii "CONFIG_X=m\n") false),
        false) := by
    rw [kconfig, switches, if_neg (by decide)]
    change (parseExpr _ _ _ _ _ >>= _) = _
    rw [hparse]
    rfl
  have hdump : dumpConfig (ascii "CONFIG_") (loadConfig (ascii "CONFIG_")
      (ascii "CONFIG_X=m\n") false) = ascii "CONFIG_X=m\n" := by decide +kernel
  rw [hdump] at hrun
  refine kconfig_output rfl (by decide +kernel) (fun name text h modPlus => ?_) hrun
  obtain rfl := Option.some.inj h
  cases modPlus <;> decide +kernel

end Output

end NeonWrt.Kconfig
