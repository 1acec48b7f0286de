import Tazamun.Basic.Types
import Tazamun.Query.Pattern
import Tazamun.Sync.Record

set_option autoImplicit false

/-! # The values of the configuration

Every setting of a session arrives as text, from the command line, the setup panel or the
dashboard, and is parsed by one of a few functions (`state.rs`): switches, roles, sizes,
subtrees, durations, relays and numbers.

What other packages do is a parameter (`Humane`) of which nothing is assumed: the durations of
`humantime`, the relay URLs of `iroh`, and how Rust quotes a text in a message.

A size is shown in the largest unit that divides it (`fmt_size`), and what is shown is read as
the same size: **`parseSize_fmtSize`**.
-/

namespace Tazamun

namespace Config

/-- Nanoseconds. -/
abbrev Duration : Type := Nat

namespace Duration

def fromSecs (n : Nat) : Duration := n * 10 ^ 9
def fromMillis (n : U64) : Duration := n.val * 10 ^ 6
def asMillis (d : Duration) : Nat := d / 10 ^ 6

/-- `Ord::clamp`. -/
def clamp (d low high : Duration) : Duration := if d < low then low else if high < d then high else d

end Duration

structure Humane where
  /-- The `{:?}` of a text. -/
  quote : String → String
  parseDuration : String → Except String Duration
  formatDuration : Duration → String
  RelayUrl : Type
  parseRelayUrl : String → Except String RelayUrl
  relayUrlText : RelayUrl → String

variable (env : Humane)

/-! ## Text -/

def strTrim (s : String) : String := String.ofList (trim s.toList)

/-- `to_ascii_lowercase`. -/
def asciiLower (s : String) : String := String.ofList (s.toList.map Char.toLower)

/-- `strip_suffix`. -/
def stripSuffix (suffix s : List Char) : Option (List Char) :=
  if suffix <:+ s then some (s.take (s.length - suffix.length)) else none

def skipPlus : List Char → List Char
  | '+' :: rest => rest
  | s => s

/-- `parse` at an unsigned type of `w` bits: digits, perhaps after a `+`. -/
def parseUint (w : Nat) (s : List Char) : Option (Fin (2 ^ w)) :=
  if skipPlus s ≠ [] ∧ (skipPlus s).all Char.isDigit = true then
    if h : Nat.ofDigitChars 10 (skipPlus s) 0 < 2 ^ w then some ⟨_, h⟩ else none
  else none

/-! ## The parsers -/

def parseOnOff (value : String) : Except String Bool :=
  let v := asciiLower (strTrim value)
  if v = "on" ∨ v = "true" ∨ v = "yes" ∨ v = "1" then .ok true
  else if v = "off" ∨ v = "false" ∨ v = "no" ∨ v = "0" then .ok false
  else .error ("expected on/off, got " ++ env.quote v)

def parseRole (value : String) : Except String NodeRole :=
  let v := asciiLower (strTrim value)
  if v = "editor" then .ok .editor
  else if v = "viewer" then .ok .viewer
  else if v = "archive" then .ok .archive
  else .error ("unknown role " ++ env.quote v ++ " (valid: editor, viewer, archive)")

inductive RelayChoice where
  | default
  | custom (url : env.RelayUrl)
  | disabled

variable {env} in
def RelayChoice.toConfigString : RelayChoice env → String
  | .default => "default"
  | .disabled => "none"
  | .custom url => env.relayUrlText url

def RelayChoice.parse (s : String) : Except String (RelayChoice env) :=
  let v := strTrim s
  if v = "default" ∨ v = "" then .ok .default
  else if v = "none" ∨ v = "disabled" ∨ v = "off" then .ok .disabled
  else
    match env.parseRelayUrl v with
    | .ok url => .ok (.custom url)
    | .error e =>
        .error ("invalid relay setting " ++ env.quote v ++ ": " ++ e
          ++ " (use default, none, or an https URL)")

/-- The closure `clamp_dur`. -/
def clampDur (value : String) (low high : Duration) : Except String Duration :=
  match env.parseDuration (strTrim value) with
  | .ok raw => .ok (raw.clamp low high)
  | .error e =>
      .error ("invalid duration " ++ env.quote value ++ ": " ++ e ++ " (use 90s, 15m, 2h)")

/-- `trim_matches('/')`. -/
def trimSlashes (s : String) : String :=
  String.ofList ((s.toList.dropWhile (· == '/')).rdropWhile (· == '/'))

/-- A subtree passes what every synced path passes; the empty text stands for none. -/
def validateSubtree (value : String) : Except String String :=
  let v := trimSlashes (strTrim value)
  if v = "" then .ok ""
  else
    match sanitizeRelPath v with
    | .ok p => .ok p
    | .error e => .error ("invalid subtree " ++ env.quote value ++ ": " ++ e.text)

/-- The loop of `sync-skip` over the parts of its value; the empty ones are dropped. -/
def validateSubtrees : List String → Except String (List String)
  | [] => .ok []
  | raw :: rest =>
      match validateSubtree env raw with
      | .error e => .error e
      | .ok v => (validateSubtrees rest).map fun parts => if v = "" then parts else v :: parts

/-! Four settings check their value in place (`set_value`), before they are assigned. -/

/-- The check of `dashboard-port`. -/
def parsePort (value : String) : Except String (Fin (2 ^ 16)) :=
  match parseUint 16 (trim value.toList) with
  | none => .error ("invalid port " ++ env.quote value ++ " (1024–65535)")
  | some p => if p.val < 1024 then .error "port must be >= 1024" else .ok p

/-- The check of `update-channel`. -/
def parseChannel (value : String) : Except String String :=
  let v := asciiLower (strTrim value)
  if v ≠ "stable" ∧ v ≠ "beta" then
    .error ("unknown channel " ++ env.quote value ++ " (valid: stable, beta)")
  else .ok v

/-- The check of `history-depth`; a depth is a `usize`, of 64 bits. -/
def parseHistoryDepth (value : String) : Except String (Fin (2 ^ 64)) :=
  let v := trim value.toList
  match if eqIgnoreAsciiCase v "auto".toList then some 0 else parseUint 64 v with
  | none => .error ("invalid history-depth " ++ env.quote value ++ " (0/auto, or 1-1000)")
  | some n => if 1000 < n.val then .error "history-depth caps at 1000" else .ok n

/-- The check of `sync-skip`. -/
def parseSkip (value : String) : Except String String :=
  match validateSubtrees env ((value.toList.splitOn ',').map String.ofList) with
  | .error e => .error e
  | .ok parts => .ok (",".intercalate parts)

/-! ## Sizes -/

/-- The number and the unit of a size. -/
def splitUnit (v : List Char) : List Char × Nat :=
  match stripSuffix ['g', 'b'] v with
  | some n => (n, 1024 ^ 3)
  | none =>
      match stripSuffix ['m', 'b'] v with
      | some n => (n, 1024 ^ 2)
      | none =>
          match stripSuffix ['k', 'b'] v with
          | some n => (n, 1024)
          | none =>
              match stripSuffix ['b'] v with
              | some n => (n, 1)
              | none => (v, 1)

/-- Plain bytes, or with a unit; `0`, `off` and `unlimited` stand for no ceiling. -/
def parseSize (value : String) : Except String U64 :=
  let v := asciiLower (strTrim value)
  if v = "" ∨ v = "0" ∨ v = "off" ∨ v = "unlimited" then .ok 0
  else
    match parseUint 64 (trim (splitUnit v.toList).1) with
    | none => .error ("invalid size " ++ env.quote value ++ " (use 0, 500KB, 100MB, 2GB)")
    | some num =>
        if h : num.val * (splitUnit v.toList).2 < 2 ^ 64 then .ok ⟨_, h⟩
        else .error ("size " ++ env.quote value ++ " overflows")

def fmtSize (bytes : U64) : String :=
  if bytes.val = 0 then "unlimited"
  else if bytes.val % 1024 ^ 3 = 0 then (bytes.val / 1024 ^ 3).repr ++ "GB"
  else if bytes.val % 1024 ^ 2 = 0 then (bytes.val / 1024 ^ 2).repr ++ "MB"
  else if bytes.val % 1024 = 0 then (bytes.val / 1024).repr ++ "KB"
  else bytes.val.repr ++ "B"

/-! ## What is shown is read -/

/-- The digits of a number. -/
abbrev digits (n : Nat) : List Char := Nat.toDigits 10 n

theorem isDigit_of_mem_digits {n : Nat} {c : Char} (h : c ∈ digits n) : c.isDigit = true :=
  Nat.isDigit_of_mem_toDigits (by decide) (by decide) h

theorem digit_range {c : Char} (h : c.isDigit = true) : 48 ≤ c.toNat ∧ c.toNat ≤ 57 := by
  simp only [Char.isDigit, Bool.and_eq_true, decide_eq_true_eq] at h
  exact h

theorem skipPlus_digits (n : Nat) : skipPlus (digits n) = digits n := by
  cases h : digits n with
  | nil => rfl
  | cons c rest =>
      have hdigit : c.isDigit = true :=
        isDigit_of_mem_digits (n := n) (by rw [h]; exact List.mem_cons_self)
      by_cases hplus : c = '+'
      · rw [hplus] at hdigit
        exact absurd hdigit (by decide)
      · rw [skipPlus]
        simp [hplus]

theorem parseUint_digits {w n : Nat} (h : n < 2 ^ w) : parseUint w (digits n) = some ⟨n, h⟩ := by
  have hvalue : Nat.ofDigitChars 10 (digits n) 0 = n := Nat.ofDigitChars_ten_toDigits
  have hall : (digits n).all Char.isDigit = true :=
    List.all_eq_true.mpr fun c hc => isDigit_of_mem_digits hc
  have hne : digits n ≠ [] := Nat.toDigits_ne_nil
  rw [parseUint, skipPlus_digits, if_pos ⟨hne, hall⟩, dif_pos (by rw [hvalue]; exact h)]
  simp only [hvalue]

theorem stripSuffix_append (s suffix : List Char) :
    stripSuffix suffix (s ++ suffix) = some s := by
  rw [stripSuffix, if_pos (List.suffix_append _ _), List.length_append, Nat.add_sub_cancel,
    List.take_left]

/-- Another end of the same length is no end. -/
theorem stripSuffix_eq_none {s suffix other : List Char} (hlen : suffix.length = other.length)
    (hne : suffix ≠ other) : stripSuffix suffix (s ++ other) = none := by
  refine if_neg ?_
  rintro ⟨s', hs'⟩
  exact hne (List.append_inj' hs' hlen).2

/-- The unit of a size as `fmt_size` writes it. -/
theorem splitUnit_append (n : Nat) :
    splitUnit (digits n ++ ['g', 'b']) = (digits n, 1024 ^ 3) ∧
      splitUnit (digits n ++ ['m', 'b']) = (digits n, 1024 ^ 2) ∧
      splitUnit (digits n ++ ['k', 'b']) = (digits n, 1024) ∧
      splitUnit (digits n ++ ['b']) = (digits n, 1) := by
  have hlast : ∃ init c, digits n = init ++ [c] ∧ c.isDigit = true := by
    have hne : digits n ≠ [] := Nat.toDigits_ne_nil
    exact ⟨(digits n).dropLast, (digits n).getLast hne, (List.dropLast_append_getLast hne).symm,
      isDigit_of_mem_digits (List.getLast_mem hne)⟩
  obtain ⟨init, c, hinit, hc⟩ := hlast
  have hsingle : ∀ letter : Char, letter.isDigit = false →
      stripSuffix [letter, 'b'] (digits n ++ ['b']) = none := by
    intro letter hletter
    have happ : digits n ++ ['b'] = init ++ [c, 'b'] := by
      rw [hinit, List.append_assoc]
      rfl
    rw [happ]
    refine stripSuffix_eq_none rfl fun heq => ?_
    obtain rfl : letter = c := (List.cons.inj heq).1
    rw [hc] at hletter
    cases hletter
  refine ⟨?_, ?_, ?_, ?_⟩
  · simp only [splitUnit, stripSuffix_append]
  · have hg : stripSuffix ['g', 'b'] (digits n ++ ['m', 'b']) = none :=
      stripSuffix_eq_none rfl (by decide)
    simp only [splitUnit, hg, stripSuffix_append]
  · have hg : stripSuffix ['g', 'b'] (digits n ++ ['k', 'b']) = none :=
      stripSuffix_eq_none rfl (by decide)
    have hm : stripSuffix ['m', 'b'] (digits n ++ ['k', 'b']) = none :=
      stripSuffix_eq_none rfl (by decide)
    simp only [splitUnit, hg, hm, stripSuffix_append]
  · simp only [splitUnit, hsingle 'g' rfl, hsingle 'm' rfl, hsingle 'k' rfl, stripSuffix_append]

theorem trim_of_range {s : List Char} (h : ∀ c ∈ s, 48 ≤ c.toNat ∧ c.toNat ≤ 122) :
    trim s = s := by
  have hplain : ∀ c ∈ s, isWhitespace c = false := fun c hc => isWhitespace_of_range (h c hc)
  have htrim : trim ([] ++ s ++ []) = s := trim_surrounded (by simp) (by simp) hplain
  rwa [List.nil_append, List.append_nil] at htrim

theorem toLower_digit {c : Char} (h : c.isDigit = true) : c.toLower = c := by
  have hrange := digit_range h
  refine dif_neg fun hupper => ?_
  have hlow : 65 ≤ c.toNat := hupper.1
  omega

/-- A text that starts with digits is none of the words for no ceiling. -/
theorem ne_word {n : Nat} {u : List Char} (hu : u ≠ []) :
    ¬ (String.ofList (digits n ++ u) = "" ∨ String.ofList (digits n ++ u) = "0" ∨
      String.ofList (digits n ++ u) = "off" ∨ String.ofList (digits n ++ u) = "unlimited") := by
  have hne : digits n ≠ [] := Nat.toDigits_ne_nil
  have hfirst : ∀ c : Char, ∀ rest, digits n ++ u = c :: rest → c.isDigit = true := by
    intro c rest heq
    obtain ⟨d, ds, hds⟩ := List.exists_cons_of_ne_nil hne
    rw [hds, List.cons_append] at heq
    obtain rfl := (List.cons.inj heq).1
    exact isDigit_of_mem_digits (n := n) (by rw [hds]; exact List.mem_cons_self)
  have hlist : ∀ s : String, String.ofList (digits n ++ u) = s → digits n ++ u = s.toList := by
    rintro s rfl
    exact String.toList_ofList.symm
  rintro (h | h | h | h)
  · exact hne (List.append_eq_nil_iff.mp (hlist _ h)).1
  · have hlen := congrArg List.length (hlist _ h)
    have hd := List.length_pos_of_ne_nil hne
    have hu' := List.length_pos_of_ne_nil hu
    rw [List.length_append] at hlen
    have hone : ("0" : String).toList.length = 1 := rfl
    omega
  · exact absurd (hfirst _ _ (hlist _ h)) (by decide)
  · exact absurd (hfirst _ _ (hlist _ h)) (by decide)

/-- A number with a unit behind it. -/
theorem parseSize_unit {n mult : Nat} (unit : List Char) {lower : List Char}
    (hunit : unit.all (fun c => decide (48 ≤ c.toNat ∧ c.toNat ≤ 122)) = true)
    (hlower : unit.map Char.toLower = lower) (hne : lower ≠ [])
    (hsplit : splitUnit (digits n ++ lower) = (digits n, mult)) (hmult : 0 < mult)
    (h : n * mult < 2 ^ 64) :
    parseSize env (n.repr ++ String.ofList unit) = .ok ⟨n * mult, h⟩ := by
  have hdigits : ∀ c ∈ digits n, 48 ≤ c.toNat ∧ c.toNat ≤ 122 := by
    intro c hc
    have hrange := digit_range (isDigit_of_mem_digits hc)
    omega
  have hall : ∀ c ∈ digits n ++ unit, 48 ≤ c.toNat ∧ c.toNat ≤ 122 := by
    intro c hc
    rcases List.mem_append.mp hc with hc | hc
    · exact hdigits c hc
    · exact of_decide_eq_true (List.all_eq_true.mp hunit c hc)
  have hsame : (digits n).map Char.toLower = digits n := by
    conv_rhs => rw [← List.map_id (digits n)]
    exact List.map_congr_left fun c hc => toLower_digit (isDigit_of_mem_digits hc)
  have hv : asciiLower (strTrim (n.repr ++ String.ofList unit))
      = String.ofList (digits n ++ lower) := by
    rw [asciiLower, strTrim, String.toList_append, Nat.toList_repr, String.toList_ofList,
      String.toList_ofList, trim_of_range hall, List.map_append, hsame, hlower]
  have hn : n < 2 ^ 64 :=
    calc n ≤ n * mult := Nat.le_mul_of_pos_right n hmult
      _ < 2 ^ 64 := h
  simp only [parseSize, hv]
  rw [if_neg (ne_word hne)]
  simp only [String.toList_ofList, hsplit, trim_of_range hdigits, parseUint_digits hn]
  rw [dif_pos h]

/-- The shown size has a unit that divides it. -/
theorem parseSize_shown (bytes : U64) {mult : Nat} (unit : List Char) {lower : List Char}
    (hunit : unit.all (fun c => decide (48 ≤ c.toNat ∧ c.toNat ≤ 122)) = true)
    (hlower : unit.map Char.toLower = lower) (hne : lower ≠ [])
    (hsplit : ∀ n, splitUnit (digits n ++ lower) = (digits n, mult)) (hmult : 0 < mult)
    (hdvd : bytes.val % mult = 0) :
    parseSize env ((bytes.val / mult).repr ++ String.ofList unit) = .ok bytes := by
  have hmul : bytes.val / mult * mult = bytes.val :=
    Nat.div_mul_cancel (Nat.dvd_of_mod_eq_zero hdvd)
  have hread := parseSize_unit env unit hunit hlower hne (hsplit (bytes.val / mult)) hmult
    (by rw [hmul]; exact bytes.isLt)
  rw [hread]
  exact congrArg Except.ok (Fin.ext hmul)

/-- **What is shown is read as the same size.** -/
theorem parseSize_fmtSize (bytes : U64) : parseSize env (fmtSize bytes) = .ok bytes := by
  have hunits := splitUnit_append
  rw [fmtSize]
  split
  · rename_i hzero
    have hword : parseSize env "unlimited" = .ok 0 := rfl
    rw [hword]
    exact congrArg Except.ok (Fin.ext hzero.symm)
  · split
    · rename_i hgb
      exact parseSize_shown env bytes ['G', 'B'] rfl rfl (by decide) (fun n => (hunits n).1)
        (by decide) hgb
    · split
      · rename_i hmb
        exact parseSize_shown env bytes ['M', 'B'] rfl rfl (by decide) (fun n => (hunits n).2.1)
          (by decide) hmb
      · split
        · rename_i hkb
          exact parseSize_shown env bytes ['K', 'B'] rfl rfl (by decide)
            (fun n => (hunits n).2.2.1) (by decide) hkb
        · have hone := parseSize_shown env bytes ['B'] rfl rfl (by decide)
            (fun n => (hunits n).2.2.2) (by decide) (Nat.mod_one _)
          rwa [Nat.div_one] at hone

end Config

end Tazamun
