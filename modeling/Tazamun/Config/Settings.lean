import Tazamun.Config.Values

set_option autoImplicit false

/-! # Changing the configuration

The settings of a session folder (`SessionConfig`, `state.rs`) are one record, and every change
is a key and a value, both text. `set_value` knows all keys; the running daemon takes a change
through `set_live_value`, which passes some keys on to `set_value` and refuses the others.
Both work on the record in place and may give up half way, so they are state transformers that
leave a record behind in either case (`EStateM`).

Over them stands what a change is for: a value for one field (`Effect`). Every key has its field
(`fieldOf`), and whatever the key and the text, `set_value` does nothing or stores one value in
that field, one that does not depend on the record (**`setValue_effect`**). That refused changes
leave no trace, that accepted ones stay in their field, and that making one twice is making it
once, follow for all keys alike (**`config_changes`**).
-/

namespace Tazamun

namespace Config

/-! ## The record -/

structure SessionConfig where
  relay : String
  lan : Bool
  airgap : Bool
  leaseTtlMs : U64
  acquireTimeoutMs : U64
  autolock : Bool
  strict : Bool
  role : NodeRole
  waitTimeoutMs : U64
  dashboardPort : Fin (2 ^ 16)
  updateChannel : String
  junkFilter : Bool
  syncOnly : String
  syncSkip : String
  maxFileSize : U64
  /-- A `usize`, of 64 bits. -/
  historyDepth : Fin (2 ^ 64)
  maxDown : U64
  audit : Bool
  hooks : Bool
  notify : Bool
deriving DecidableEq

def minLeaseTtl : Duration := .fromSecs 10
def maxLeaseTtl : Duration := .fromSecs (24 * 60 * 60)
def minAcquireTimeout : Duration := .fromSecs 2
def maxAcquireTimeout : Duration := .fromSecs 60

/-- `Default::default`. -/
def SessionConfig.default : SessionConfig where
  relay := "default"
  lan := true
  airgap := false
  leaseTtlMs := 90000
  acquireTimeoutMs := 8000
  autolock := false
  strict := true
  role := .editor
  waitTimeoutMs := 600000
  dashboardPort := 8787
  updateChannel := "stable"
  junkFilter := true
  syncOnly := ""
  syncSkip := ""
  maxFileSize := 0
  historyDepth := 0
  maxDown := 0
  audit := true
  hooks := true
  notify := false

/-- The lease TTL that is used. -/
def SessionConfig.leaseTtl (c : SessionConfig) : Duration :=
  (Duration.fromMillis c.leaseTtlMs).clamp minLeaseTtl maxLeaseTtl

/-- The acquire timeout that is used. -/
def SessionConfig.acquireTimeout (c : SessionConfig) : Duration :=
  (Duration.fromMillis c.acquireTimeoutMs).clamp minAcquireTimeout maxAcquireTimeout

/-! ## The setters -/

def onOff (b : Bool) : String := if b then "on" else "off"

def roleText : NodeRole → String
  | .editor => "editor"
  | .viewer => "viewer"
  | .archive => "archive"

/-- `as u64`. -/
def asU64 (n : Nat) : U64 := Fin.ofNat (2 ^ 64) n

/-- A change of the configuration, with a note of what was set. -/
abbrev Setter : Type := EStateM String SessionConfig String

variable (env : Humane)

/-- `set_value`: any key. -/
def setValue (key value : String) : Setter :=
  match key with
  | "relay" => do
      let choice ← ofExcept (RelayChoice.parse env value)
      modify fun c => { c with relay := choice.toConfigString }
      return "relay = " ++ (← get).relay
  | "lan" => do
      let b ← ofExcept (parseOnOff env value)
      modify fun c => { c with lan := b }
      return "lan = " ++ onOff (← get).lan
  | "airgap" => do
      let b ← ofExcept (parseOnOff env value)
      modify fun c => { c with airgap := b }
      return "airgap = " ++ onOff (← get).airgap
  | "strict" => do
      let b ← ofExcept (parseOnOff env value)
      modify fun c => { c with strict := b }
      return "strict = " ++ if (← get).strict then "on" else "off (easy mode)"
  | "role" => do
      let role ← ofExcept (parseRole env value)
      modify fun c => { c with role }
      return "role = " ++ roleText (← get).role
  | "autolock" => do
      let b ← ofExcept (parseOnOff env value)
      modify fun c => { c with autolock := b }
      return "autolock = " ++ onOff (← get).autolock
  | "lease-ttl" => do
      let d ← ofExcept (clampDur env value minLeaseTtl maxLeaseTtl)
      modify fun c => { c with leaseTtlMs := asU64 d.asMillis }
      return "lease-ttl = " ++ env.formatDuration d
  | "acquire-timeout" => do
      let d ← ofExcept (clampDur env value minAcquireTimeout maxAcquireTimeout)
      modify fun c => { c with acquireTimeoutMs := asU64 d.asMillis }
      return "acquire-timeout = " ++ env.formatDuration d
  | "wait-timeout" => do
      let d ← ofExcept (clampDur env value (.fromSecs 10) maxLeaseTtl)
      modify fun c => { c with waitTimeoutMs := asU64 d.asMillis }
      return "wait-timeout = " ++ env.formatDuration d
  | "dashboard-port" | "dashboard.port" => do
      let p ← ofExcept (parsePort env value)
      modify fun c => { c with dashboardPort := p }
      return "dashboard-port = " ++ p.val.repr ++ " (effective on next start)"
  | "update-channel" => do
      let v ← ofExcept (parseChannel env value)
      modify fun c => { c with updateChannel := v }
      return "update-channel = " ++ (← get).updateChannel
  | "junk-filter" => do
      let b ← ofExcept (parseOnOff env value)
      modify fun c => { c with junkFilter := b }
      return "junk-filter = " ++ onOff (← get).junkFilter
  | "audit" => do
      let b ← ofExcept (parseOnOff env value)
      modify fun c => { c with audit := b }
      return "audit = " ++ onOff (← get).audit
  | "hooks" => do
      let b ← ofExcept (parseOnOff env value)
      modify fun c => { c with hooks := b }
      return "hooks = " ++ onOff (← get).hooks
  | "notify" => do
      let b ← ofExcept (parseOnOff env value)
      modify fun c => { c with notify := b }
      return "notify = " ++ onOff (← get).notify
  | "sync-only" => do
      let v ← ofExcept (validateSubtree env value)
      modify fun c => { c with syncOnly := v }
      let subtree := (← get).syncOnly
      return if subtree = "" then "sync-only cleared (carrying everything)"
        else "sync-only = " ++ subtree ++ "/"
  | "sync-skip" => do
      let v ← ofExcept (parseSkip env value)
      modify fun c => { c with syncSkip := v }
      let skip := (← get).syncSkip
      return if skip = "" then "sync-skip cleared" else "sync-skip = " ++ skip
  | "max-file-size" => do
      let size ← ofExcept (parseSize env value)
      modify fun c => { c with maxFileSize := size }
      return "max-file-size = " ++ fmtSize (← get).maxFileSize ++ " (new paths only)"
  | "history-depth" => do
      let n ← ofExcept (parseHistoryDepth env value)
      modify fun c => { c with historyDepth := n }
      return "history-depth = " ++ if n = 0 then "auto" else n.val.repr
  | "max-down" => do
      let size ← ofExcept (parseSize env value)
      modify fun c => { c with maxDown := size }
      let down := (← get).maxDown
      return "max-down = " ++ if down = 0 then "unlimited" else fmtSize down ++ "/s"
  | other =>
      throw ("unknown config key " ++ env.quote other ++ " (valid: relay, lan, airgap, strict, "
        ++ "role, autolock, lease-ttl, acquire-timeout, wait-timeout, dashboard-port, "
        ++ "update-channel, junk-filter, sync-only, sync-skip, max-file-size, "
        ++ "history-depth, max-down, audit, hooks, notify)")

/-- The keys that may be changed under a running daemon. -/
def liveKeys : List String :=
  ["autolock", "lease-ttl", "acquire-timeout", "wait-timeout", "dashboard-port",
    "dashboard.port", "update-channel", "max-down", "audit", "hooks", "notify"]

/-- The keys that need a restart. -/
def restartKeys : List String :=
  ["relay", "lan", "airgap", "strict", "role", "junk-filter", "sync-only", "sync-skip",
    "max-file-size"]

/-- `set_live_value`. -/
def setLiveValue (key value : String) : Setter :=
  if key ∈ liveKeys then setValue env key value
  else if key ∈ restartKeys then
    throw (key ++ " needs a restart; use `tazamun config set " ++ key
      ++ " …` then restart the daemon")
  else
    throw ("unknown or non-live config key " ++ env.quote key ++ " (live keys: autolock, "
      ++ "lease-ttl, acquire-timeout, wait-timeout, dashboard-port, update-channel, max-down, "
      ++ "audit, hooks, notify)")

/-! ## Fields -/

inductive Field where
  | relay | lan | airgap | leaseTtlMs | acquireTimeoutMs | autolock | strict | role
  | waitTimeoutMs | dashboardPort | updateChannel | junkFilter | syncOnly | syncSkip
  | maxFileSize | historyDepth | maxDown | audit | hooks | notify
deriving DecidableEq

/-- What a field holds. -/
def Field.Value : Field → Type
  | .relay | .updateChannel | .syncOnly | .syncSkip => String
  | .lan | .airgap | .autolock | .strict | .junkFilter | .audit | .hooks | .notify => Bool
  | .leaseTtlMs | .acquireTimeoutMs | .waitTimeoutMs | .maxFileSize | .maxDown => U64
  | .role => NodeRole
  | .dashboardPort => Fin (2 ^ 16)
  | .historyDepth => Fin (2 ^ 64)

namespace SessionConfig

def get (c : SessionConfig) : (f : Field) → f.Value
  | .relay => c.relay
  | .lan => c.lan
  | .airgap => c.airgap
  | .leaseTtlMs => c.leaseTtlMs
  | .acquireTimeoutMs => c.acquireTimeoutMs
  | .autolock => c.autolock
  | .strict => c.strict
  | .role => c.role
  | .waitTimeoutMs => c.waitTimeoutMs
  | .dashboardPort => c.dashboardPort
  | .updateChannel => c.updateChannel
  | .junkFilter => c.junkFilter
  | .syncOnly => c.syncOnly
  | .syncSkip => c.syncSkip
  | .maxFileSize => c.maxFileSize
  | .historyDepth => c.historyDepth
  | .maxDown => c.maxDown
  | .audit => c.audit
  | .hooks => c.hooks
  | .notify => c.notify

def set (c : SessionConfig) : (f : Field) → f.Value → SessionConfig
  | .relay, v => { c with relay := v }
  | .lan, v => { c with lan := v }
  | .airgap, v => { c with airgap := v }
  | .leaseTtlMs, v => { c with leaseTtlMs := v }
  | .acquireTimeoutMs, v => { c with acquireTimeoutMs := v }
  | .autolock, v => { c with autolock := v }
  | .strict, v => { c with strict := v }
  | .role, v => { c with role := v }
  | .waitTimeoutMs, v => { c with waitTimeoutMs := v }
  | .dashboardPort, v => { c with dashboardPort := v }
  | .updateChannel, v => { c with updateChannel := v }
  | .junkFilter, v => { c with junkFilter := v }
  | .syncOnly, v => { c with syncOnly := v }
  | .syncSkip, v => { c with syncSkip := v }
  | .maxFileSize, v => { c with maxFileSize := v }
  | .historyDepth, v => { c with historyDepth := v }
  | .maxDown, v => { c with maxDown := v }
  | .audit, v => { c with audit := v }
  | .hooks, v => { c with hooks := v }
  | .notify, v => { c with notify := v }

@[simp] theorem get_set_self (c : SessionConfig) (f : Field) (v : f.Value) :
    (c.set f v).get f = v := by
  cases f <;> rfl

theorem get_set_of_ne (c : SessionConfig) {f g : Field} (v : f.Value) (h : g ≠ f) :
    (c.set f v).get g = c.get g := by
  cases f <;> cases g <;> first | rfl | exact absurd rfl h

@[simp] theorem set_set (c : SessionConfig) (f : Field) (v w : f.Value) :
    (c.set f v).set f w = c.set f w := by
  cases f <;> rfl

end SessionConfig

/-- The field that a key sets. -/
def fieldOf : String → Option Field
  | "relay" => some .relay
  | "lan" => some .lan
  | "airgap" => some .airgap
  | "strict" => some .strict
  | "role" => some .role
  | "autolock" => some .autolock
  | "lease-ttl" => some .leaseTtlMs
  | "acquire-timeout" => some .acquireTimeoutMs
  | "wait-timeout" => some .waitTimeoutMs
  | "dashboard-port" => some .dashboardPort
  | "dashboard.port" => some .dashboardPort
  | "update-channel" => some .updateChannel
  | "junk-filter" => some .junkFilter
  | "audit" => some .audit
  | "hooks" => some .hooks
  | "notify" => some .notify
  | "sync-only" => some .syncOnly
  | "sync-skip" => some .syncSkip
  | "max-file-size" => some .maxFileSize
  | "history-depth" => some .historyDepth
  | "max-down" => some .maxDown
  | _ => none

/-! ## What a change is -/

/-- A change that is refused, or a value for a field. -/
inductive Effect where
  | refuse (reason : String)
  | store (f : Field) (v : f.Value) (note : String)

def Effect.run : Effect → Setter
  | .refuse reason => throw reason
  | .store f v note => do
      modify fun c => c.set f v
      return note

/-- The effect is one that the key may have. -/
def Effect.For (key : String) : Effect → Prop
  | .refuse _ => True
  | .store f _ _ => fieldOf key = some f

/-- A value is parsed and stored, and a note is made of it. -/
theorem exists_effect {α : Type} {key : String} (f : Field) (hkey : fieldOf key = some f)
    (parsed : Except String α) (v : α → f.Value) (note : α → String) {setter : α → Setter}
    (hsetter : ∀ a, setter a = (Effect.store f (v a) (note a)).run) :
    ∃ effect : Effect, effect.For key ∧ (ofExcept parsed >>= setter : Setter) = effect.run := by
  cases parsed with
  | error e =>
      exact ⟨.refuse e, trivial, rfl⟩
  | ok a =>
      exact ⟨.store f (v a) (note a), hkey, hsetter a⟩

/-- **Whatever the key and the value**, nothing is done, or one value is stored in the field of
the key. -/
theorem setValue_effect (key value : String) :
    ∃ effect : Effect, effect.For key ∧ setValue env key value = effect.run := by
  unfold setValue
  split
  case h_1 =>
    exact exists_effect .relay rfl _ (fun choice => choice.toConfigString)
      (fun choice => "relay = " ++ choice.toConfigString) fun _ => rfl
  case h_2 =>
    exact exists_effect .lan rfl _ (fun b => b) (fun b : Bool => "lan = " ++ onOff b)
      fun _ => rfl
  case h_3 =>
    exact exists_effect .airgap rfl _ (fun b => b) (fun b : Bool => "airgap = " ++ onOff b)
      fun _ => rfl
  case h_4 =>
    exact exists_effect .strict rfl _ (fun b => b)
      (fun b : Bool => "strict = " ++ if b then "on" else "off (easy mode)") fun _ => rfl
  case h_5 =>
    exact exists_effect .role rfl _ (fun role => role) (fun role => "role = " ++ roleText role)
      fun _ => rfl
  case h_6 =>
    exact exists_effect .autolock rfl _ (fun b => b) (fun b : Bool => "autolock = " ++ onOff b)
      fun _ => rfl
  case h_7 =>
    exact exists_effect .leaseTtlMs rfl _ (fun d => asU64 d.asMillis)
      (fun d => "lease-ttl = " ++ env.formatDuration d) fun _ => rfl
  case h_8 =>
    exact exists_effect .acquireTimeoutMs rfl _ (fun d => asU64 d.asMillis)
      (fun d => "acquire-timeout = " ++ env.formatDuration d) fun _ => rfl
  case h_9 =>
    exact exists_effect .waitTimeoutMs rfl _ (fun d => asU64 d.asMillis)
      (fun d => "wait-timeout = " ++ env.formatDuration d) fun _ => rfl
  case h_10 =>
    exact exists_effect .dashboardPort rfl _ (fun p => p)
      (fun p => "dashboard-port = " ++ p.val.repr ++ " (effective on next start)") fun _ => rfl
  case h_11 =>
    exact exists_effect .dashboardPort rfl _ (fun p => p)
      (fun p => "dashboard-port = " ++ p.val.repr ++ " (effective on next start)") fun _ => rfl
  case h_12 =>
    exact exists_effect .updateChannel rfl _ (fun v => v)
      (fun v : String => "update-channel = " ++ v) fun _ => rfl
  case h_13 =>
    exact exists_effect .junkFilter rfl _ (fun b => b) (fun b : Bool => "junk-filter = " ++ onOff b)
      fun _ => rfl
  case h_14 =>
    exact exists_effect .audit rfl _ (fun b => b) (fun b : Bool => "audit = " ++ onOff b)
      fun _ => rfl
  case h_15 =>
    exact exists_effect .hooks rfl _ (fun b => b) (fun b : Bool => "hooks = " ++ onOff b)
      fun _ => rfl
  case h_16 =>
    exact exists_effect .notify rfl _ (fun b => b) (fun b : Bool => "notify = " ++ onOff b)
      fun _ => rfl
  case h_17 =>
    exact exists_effect .syncOnly rfl _ (fun v => v)
      (fun v : String => if v = "" then "sync-only cleared (carrying everything)"
        else "sync-only = " ++ v ++ "/") fun _ => rfl
  case h_18 =>
    exact exists_effect .syncSkip rfl _ (fun v => v)
      (fun v : String => if v = "" then "sync-skip cleared" else "sync-skip = " ++ v) fun _ => rfl
  case h_19 =>
    exact exists_effect .maxFileSize rfl _ (fun size => size)
      (fun size => "max-file-size = " ++ fmtSize size ++ " (new paths only)") fun _ => rfl
  case h_20 =>
    exact exists_effect .historyDepth rfl _ (fun n => n)
      (fun n : Fin (2 ^ 64) => "history-depth = " ++ if n = 0 then "auto" else n.val.repr)
      fun _ => rfl
  case h_21 =>
    exact exists_effect .maxDown rfl _ (fun size => size)
      (fun size : U64 => "max-down = " ++ if size = 0 then "unlimited" else fmtSize size ++ "/s")
      fun _ => rfl
  case h_22 =>
    exact ⟨.refuse _, trivial, rfl⟩

/-! ## Orderly changes -/

/-- A refused change leaves the record as it was; an accepted one keeps to the field of its key,
and making it again changes nothing. -/
structure Orderly (key : String) (change : Setter) (c : SessionConfig) : Prop where
  unchanged : ∀ reason c', change.run c = .error reason c' → c' = c
  oneField : ∀ note c', change.run c = .ok note c' →
    ∃ f, fieldOf key = some f ∧ ∀ g, g ≠ f → c'.get g = c.get g
  again : ∀ note c', change.run c = .ok note c' → change.run c' = .ok note c'

/-- What every effect is. -/
theorem Effect.For.orderly {key : String} {effect : Effect} (h : effect.For key)
    (c : SessionConfig) : Orderly key effect.run c := by
  cases effect with
  | refuse reason =>
      refine ⟨?_, ?_, ?_⟩
      · intro e c' hrun
        obtain ⟨-, rfl⟩ := EStateM.Result.error.inj hrun
        rfl
      · intro note c' hrun
        cases hrun
      · intro note c' hrun
        cases hrun
  | store f v note =>
      refine ⟨?_, ?_, ?_⟩
      · intro e c' hrun
        cases hrun
      · intro note' c' hrun
        obtain ⟨-, rfl⟩ := EStateM.Result.ok.inj hrun
        exact ⟨f, h, fun g hg => c.get_set_of_ne v hg⟩
      · intro note' c' hrun
        obtain ⟨rfl, rfl⟩ := EStateM.Result.ok.inj hrun
        show EStateM.Result.ok note ((c.set f v).set f v) = _
        rw [SessionConfig.set_set]

theorem setValue_orderly (key value : String) (c : SessionConfig) :
    Orderly key (setValue env key value) c := by
  obtain ⟨effect, hfor, heq⟩ := setValue_effect env key value
  rw [heq]
  exact hfor.orderly c

/-! ## Live changes -/

theorem setLiveValue_of_live {key : String} (value : String) (h : key ∈ liveKeys) :
    setLiveValue env key value = setValue env key value := if_pos h

/-- Other keys are refused. -/
theorem setLiveValue_of_not_live {key : String} (value : String) (h : key ∉ liveKeys) :
    ∃ reason, setLiveValue env key value = (Effect.refuse reason).run := by
  rw [setLiveValue, if_neg h]
  split
  · exact ⟨_, rfl⟩
  · exact ⟨_, rfl⟩

theorem setLiveValue_orderly (key value : String) (c : SessionConfig) :
    Orderly key (setLiveValue env key value) c := by
  by_cases hlive : key ∈ liveKeys
  · rw [setLiveValue_of_live env value hlive]
    exact setValue_orderly env key value c
  · obtain ⟨reason, heq⟩ := setLiveValue_of_not_live env value hlive
    rw [heq]
    exact (show (Effect.refuse reason).For key from trivial).orderly c

theorem clamp_range {low high : Duration} (h : low ≤ high) (d : Duration) :
    low ≤ d.clamp low high ∧ d.clamp low high ≤ high := by
  rw [Duration.clamp]
  split
  · exact ⟨le_rfl, h⟩
  · rename_i hlow
    split
    · exact ⟨h, le_rfl⟩
    · rename_i hhigh
      exact ⟨Nat.le_of_not_lt hlow, Nat.le_of_not_lt hhigh⟩

/-- **Changes of the configuration are atomic and local.** Under a running daemon a change is
refused or does what it does otherwise. -/
theorem config_changes :
    (∀ (key value : String) (c : SessionConfig),
      Orderly key (setValue env key value) c ∧ Orderly key (setLiveValue env key value) c) ∧
    (∀ (key value note : String) (c c' : SessionConfig),
      (setLiveValue env key value).run c = .ok note c' →
        (setValue env key value).run c = .ok note c') ∧
    (∀ (key value : String), key ∈ liveKeys →
      setLiveValue env key value = setValue env key value) ∧
    (∀ (key value : String) (c : SessionConfig), key ∉ liveKeys →
      ∃ reason, (setLiveValue env key value).run c = .error reason c) ∧
    (∀ c : SessionConfig, minLeaseTtl ≤ c.leaseTtl ∧ c.leaseTtl ≤ maxLeaseTtl ∧
      minAcquireTimeout ≤ c.acquireTimeout ∧ c.acquireTimeout ≤ maxAcquireTimeout) ∧
    (∀ bytes : U64, parseSize env (fmtSize bytes) = .ok bytes) := by
  refine ⟨?_, ?_, ?_, ?_, ?_, parseSize_fmtSize env⟩
  · intro key value c
    exact ⟨setValue_orderly env key value c, setLiveValue_orderly env key value c⟩
  · intro key value note c c' hrun
    by_cases hlive : key ∈ liveKeys
    · rwa [setLiveValue_of_live env value hlive] at hrun
    · obtain ⟨reason, heq⟩ := setLiveValue_of_not_live env value hlive
      rw [heq] at hrun
      cases hrun
  · exact fun key value hlive => setLiveValue_of_live env value hlive
  · intro key value c hlive
    obtain ⟨reason, heq⟩ := setLiveValue_of_not_live env value hlive
    exact ⟨reason, by rw [heq]; rfl⟩
  · intro c
    obtain ⟨hlow, hhigh⟩ := clamp_range (show minLeaseTtl ≤ maxLeaseTtl by decide)
      (Duration.fromMillis c.leaseTtlMs)
    obtain ⟨hlow', hhigh'⟩ := clamp_range
      (show minAcquireTimeout ≤ maxAcquireTimeout by decide) (Duration.fromMillis c.acquireTimeoutMs)
    exact ⟨hlow, hhigh, hlow', hhigh'⟩

/-! ## Restarts -/

/-- Nothing can be parsed but what this module parses. -/
def bareHumane : Humane where
  quote s := s
  parseDuration _ := .error ""
  formatDuration _ := ""
  RelayUrl := Empty
  parseRelayUrl _ := .error ""
  relayUrlText := Empty.elim

/-- The relay can be changed in the file, not under the daemon: not every key does the same in
both ways. -/
theorem config_changes_restart :
    (∃ note c', (setValue bareHumane "relay" "none").run .default = .ok note c') ∧
      ∀ note c', (setLiveValue bareHumane "relay" "none").run .default ≠ .ok note c' := by
  refine ⟨⟨_, _, rfl⟩, ?_⟩
  intro note c' hrun
  cases hrun

end Config

end Tazamun
