import Tazamun.Scope.Ignore

set_option autoImplicit false

/-! # The scope that was configured

`config set sync-only` and `config set sync-skip` check the subtrees that are typed and store
them, those of `sync-skip` with commas between them (`state.rs`). When the daemon starts it takes
the stored text apart again and normalises every part (`sync/ignore.rs`).

What is skipped then is what was typed (**`verdict_of_configured`**): no part is lost or cut on
the way, whatever else was in the configuration. Both sides normalise, so a part is cleaned
twice, and a name with a space at its end is read as the name without it.
-/

namespace Tazamun.Scope

open Lib Config

variable (env : Humane)

/-! ## What the setters store -/

theorem validateSubtree_ok {value v : String} (h : validateSubtree env value = .ok v) :
    v = clean value := by
  unfold validateSubtree at h
  dsimp only at h
  by_cases hempty : trimSlashes (strTrim value) = ""
  · rw [if_pos hempty] at h
    obtain rfl := Except.ok.inj h
    exact hempty.symm
  · rw [if_neg hempty] at h
    cases hpath : sanitizeRelPath (trimSlashes (strTrim value)) with
    | error e =>
        rw [hpath] at h
        cases h
    | ok p =>
        rw [hpath] at h
        obtain rfl := Except.ok.inj h
        exact (sanitizeRelPath_ok hpath).1

theorem validateSubtrees_ok {values stored : List String}
    (h : validateSubtrees env values = .ok stored) :
    stored = (values.map clean).filter (· ≠ "") := by
  induction values generalizing stored with
  | nil =>
      obtain rfl := Except.ok.inj h
      rfl
  | cons raw values ih =>
      unfold validateSubtrees at h
      cases hraw : validateSubtree env raw with
      | error e =>
          rw [hraw] at h
          cases h
      | ok v =>
          rw [hraw] at h
          obtain rfl := validateSubtree_ok env hraw
          cases hrest : validateSubtrees env values with
          | error e =>
              rw [hrest] at h
              cases h
          | ok rest =>
              rw [hrest] at h
              obtain rfl := Except.ok.inj h
              obtain rfl := ih hrest
              by_cases hv : clean raw = ""
              · simp [hv]
              · simp [hv]

theorem parseSkip_ok {value stored : String} (h : parseSkip env value = .ok stored) :
    stored = ",".intercalate (((parts value).map clean).filter (· ≠ "")) := by
  unfold parseSkip at h
  cases hparts : validateSubtrees env ((value.toList.splitOn ',').map String.ofList) with
  | error e =>
      rw [hparts] at h
      cases h
  | ok stored =>
      rw [hparts] at h
      rw [← Except.ok.inj h, validateSubtrees_ok env hparts]
      rfl

theorem setValue_syncOnly {value note : String} {c c' : Config.SessionConfig}
    (h : setValue env "sync-only" value c = .ok note c') :
    c' = { c with syncOnly := clean value } := by
  unfold setValue at h
  cases hvalue : validateSubtree env value with
  | error e =>
      rw [hvalue] at h
      cases h
  | ok v =>
      rw [hvalue] at h
      obtain ⟨-, rfl⟩ := EStateM.Result.ok.inj h
      rw [validateSubtree_ok env hvalue]

theorem setValue_syncSkip {value note : String} {c c' : Config.SessionConfig}
    (h : setValue env "sync-skip" value c = .ok note c') :
    c' = { c with syncSkip := ",".intercalate (((parts value).map clean).filter (· ≠ "")) } := by
  unfold setValue at h
  cases hvalue : parseSkip env value with
  | error e =>
      rw [hvalue] at h
      cases h
  | ok v =>
      rw [hvalue] at h
      obtain ⟨-, rfl⟩ := EStateM.Result.ok.inj h
      rw [parseSkip_ok env hvalue]

/-! ## What is read again -/

theorem mem_of_mem_clean {c : Char} {value : String} (h : c ∈ (clean value).toList) :
    c ∈ value.toList := by
  unfold clean trimSlashes strTrim trim at h
  rw [String.toList_ofList, String.toList_ofList] at h
  have hslashes := (List.dropWhile_sublist _).subset ((List.rdropWhile_prefix _ _).subset h)
  exact (List.dropWhile_sublist _).subset ((List.rdropWhile_prefix _ _).subset hslashes)

theorem notMem_of_mem_splitOn {c : Char} {l piece : List Char} (h : piece ∈ l.splitOn c) :
    c ∉ piece := by
  induction l generalizing piece with
  | nil =>
      rw [List.splitOn_nil, List.mem_singleton] at h
      subst h
      exact List.not_mem_nil
  | cons x l ih =>
      rw [List.splitOn_cons_eq_if_modifyHead] at h
      by_cases hx : (x == c) = true
      · rw [if_pos hx] at h
        rcases List.mem_cons.mp h with rfl | h
        · exact List.not_mem_nil
        · exact ih h
      · rw [if_neg hx] at h
        obtain ⟨first, rest, hsplit⟩ := List.exists_cons_of_ne_nil (List.splitOn_ne_nil c l)
        rw [hsplit, List.modifyHead_cons] at h
        rcases List.mem_cons.mp h with rfl | h
        · have hfirst := ih (hsplit ▸ List.mem_cons_self)
          have hne : c ≠ x := fun heq => hx (by rw [heq, beq_self_eq_true])
          exact List.not_mem_cons_of_ne_of_not_mem hne hfirst
        · exact ih (hsplit ▸ List.mem_cons_of_mem _ h)

theorem comma_notMem_clean {value part : String} (h : part ∈ (parts value).map clean) :
    ',' ∉ part.toList := by
  obtain ⟨raw, hraw, rfl⟩ := List.mem_map.mp h
  obtain ⟨piece, hpiece, rfl⟩ := List.mem_map.mp hraw
  intro hmem
  have hin := mem_of_mem_clean hmem
  rw [String.toList_ofList] at hin
  exact notMem_of_mem_splitOn hpiece hin

/-- **What was stored with commas comes apart again.** -/
theorem parts_intercalate {stored : List String} (h : ∀ part ∈ stored, ',' ∉ part.toList)
    (hne : stored ≠ []) : parts (",".intercalate stored) = stored := by
  unfold parts
  rw [String.toList_intercalate]
  have hsplit : ([','].intercalate (stored.map String.toList)).splitOn ',' =
      stored.map String.toList := by
    refine List.splitOn_intercalate ',' ?_ (by simpa using hne)
    intro l hl
    obtain ⟨part, hpart, rfl⟩ := List.mem_map.mp hl
    exact h part hpart
  show (([','].intercalate (stored.map String.toList)).splitOn ',').map String.ofList = stored
  rw [hsplit, List.map_map]
  exact (List.map_congr_left fun part _ => String.ofList_toList).trans (List.map_id _)

/-- Empty parts do not count. -/
theorem inScope_filter (only : String) (skip : List String) (path : String) :
    InScope only (skip.filter (· ≠ "")) path ↔ InScope only skip path := by
  unfold InScope
  refine and_congr_right fun _ => ⟨fun h part hpart hne => ?_, fun h part hpart hne => ?_⟩
  · exact h part (List.mem_filter.mpr ⟨hpart, by simpa using hne⟩) hne
  · exact h part (List.mem_filter.mp hpart).1 hne

theorem clean_empty : clean "" = "" := by decide +kernel

/-- The stored text stands for the parts that were typed, each cleaned once more. -/
theorem inScope_stored (only value path : String) :
    InScope only ((parts (",".intercalate (((parts value).map clean).filter (· ≠ "")))).map clean)
        path ↔
      InScope only ((parts value).map fun part => clean (clean part)) path := by
  have htwice : ((parts value).map fun part => clean (clean part)) =
      ((parts value).map clean).map clean := by
    rw [List.map_map]
    rfl
  rw [htwice]
  by_cases hnone : ((parts value).map clean).filter (· ≠ "") = []
  · -- nothing is stored, and nothing was typed that counts
    have hempty : ∀ part ∈ (parts value).map clean, part = "" := by
      intro part hpart
      have h := List.filter_eq_nil_iff.mp hnone part hpart
      simpa using h
    have hstored : (parts (",".intercalate [])).map clean = [""] := by decide +kernel
    rw [hnone, hstored]
    unfold InScope
    refine and_congr_right fun _ => ⟨fun _ part hpart hne => ?_, fun _ part hpart hne => ?_⟩
    · obtain ⟨typed, htyped, rfl⟩ := List.mem_map.mp hpart
      rw [hempty typed htyped] at hne
      exact absurd clean_empty hne
    · exact absurd (List.mem_singleton.mp hpart) hne
  · have hcomma : ∀ part ∈ ((parts value).map clean).filter (· ≠ ""), ',' ∉ part.toList :=
      fun part hpart => comma_notMem_clean (List.mem_filter.mp hpart).1
    rw [parts_intercalate hcomma hnone]
    unfold InScope
    refine and_congr_right fun _ => ⟨fun h part hpart hne => ?_, fun h part hpart hne => ?_⟩
    · obtain ⟨typed, htyped, rfl⟩ := List.mem_map.mp hpart
      refine h _ (List.mem_map_of_mem (List.mem_filter.mpr ⟨htyped, ?_⟩)) hne
      have hcounts : typed ≠ "" := by
        rintro rfl
        exact hne clean_empty
      simpa using hcounts
    · obtain ⟨typed, htyped, rfl⟩ := List.mem_map.mp hpart
      exact h _ (List.mem_map_of_mem (List.mem_filter.mp htyped).1) hne

/-! ## What is skipped -/

/-- **The scope is the one that was typed**: after `config set sync-only` and `config set
sync-skip`, a path is skipped exactly when it is not the ignore file, and is outside the subtree
of the one or inside a subtree of the other. -/
theorem verdict_of_configured (g : Gitignore) {only skip note₁ note₂ : String}
    {c c₁ c₂ : Config.SessionConfig} (honly : setValue env "sync-only" only c = .ok note₁ c₁)
    (hskip : setValue env "sync-skip" skip c₁ = .ok note₂ c₂) (rules path : String)
    (size : Option U64) :
    (IgnoreSet.build g rules c₂.junkFilter c₂.syncOnly c₂.syncSkip c₂.maxFileSize).verdict path
        size = .skipped ↔
      path ≠ ignoreFile ∧
        ¬ InScope (clean (clean only)) ((parts skip).map fun part => clean (clean part)) path := by
  obtain rfl := setValue_syncOnly env honly
  obtain rfl := setValue_syncSkip env hskip
  rw [← inScope_stored]
  by_cases hself : path = ignoreFile
  · have hsync : (IgnoreSet.build g rules c.junkFilter (clean only)
        (",".intercalate (((parts skip).map clean).filter (· ≠ ""))) c.maxFileSize).verdict path
          size = .sync := if_pos hself
    constructor
    · intro h
      exact absurd (hsync.symm.trans h) (by decide)
    · rintro ⟨hne, -⟩
      exact absurd hself hne
  · constructor
    · intro h
      refine ⟨hself, fun hin => ?_⟩
      rw [verdict_build c.junkFilter c.maxFileSize size rfl rfl hself hin] at h
      rcases bySize_sync_or_tooLarge c.maxFileSize size with hsize | ⟨n, cap, hsize⟩ <;>
        rw [hsize] at h <;> split at h <;> (try split at h) <;> (try split at h) <;> cases h
    · rintro ⟨-, hout⟩
      exact verdict_outOfScope size hself hout

def plainHumane : Humane where
  quote s := s
  parseDuration _ := .error ""
  formatDuration _ := ""
  RelayUrl := Empty
  parseRelayUrl _ := .error ""
  relayUrlText url := nomatch url

/-- `docs/` without its drafts. -/
theorem verdict_of_configured_docs : ∃ (note₁ note₂ : String) (c₁ c₂ : Config.SessionConfig),
    setValue plainHumane "sync-only" " docs/" .default = .ok note₁ c₁ ∧
      setValue plainHumane "sync-skip" "docs/drafts/, tmp" c₁ = .ok note₂ c₂ ∧
      (IgnoreSet.build plainGitignore "" c₂.junkFilter c₂.syncOnly c₂.syncSkip
        c₂.maxFileSize).verdict "docs/drafts/a.md" none = .skipped ∧
      (IgnoreSet.build plainGitignore "" c₂.junkFilter c₂.syncOnly c₂.syncSkip
        c₂.maxFileSize).verdict "docs/drafts.md" none ≠ .skipped := by
  have honly : setValue plainHumane "sync-only" " docs/" .default =
      .ok "sync-only = docs/" { Config.SessionConfig.default with syncOnly := "docs" } := by
    have hvalue : validateSubtree plainHumane " docs/" = .ok "docs" := by decide +kernel
    unfold setValue
    rw [hvalue]
    rfl
  have hskip : setValue plainHumane "sync-skip" "docs/drafts/, tmp"
      { Config.SessionConfig.default with syncOnly := "docs" } =
      .ok "sync-skip = docs/drafts,tmp" { Config.SessionConfig.default with
        syncOnly := "docs", syncSkip := "docs/drafts,tmp" } := by
    have hvalue : parseSkip plainHumane "docs/drafts/, tmp" = .ok "docs/drafts,tmp" := by
      decide +kernel
    unfold setValue
    rw [hvalue]
    rfl
  refine ⟨_, _, _, _, honly, hskip, ?_, ?_⟩
  · rw [verdict_of_configured plainHumane plainGitignore honly hskip]
    refine ⟨by decide +kernel, fun hin => ?_⟩
    exact hin.2 "docs/drafts" (by decide +kernel) (by decide +kernel) (by decide +kernel)
  · rw [ne_eq, verdict_of_configured plainHumane plainGitignore honly hskip]
    rintro ⟨-, hout⟩
    refine hout ⟨fun _ => by decide +kernel, ?_⟩
    decide +kernel

end Tazamun.Scope
