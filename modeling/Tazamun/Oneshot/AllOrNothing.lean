import Tazamun.Oneshot.Publish
import Tazamun.Oneshot.Resume

set_option autoImplicit false

/-! # What a failed receive leaves behind

The module invariants of `oneshot.rs` say that an interrupted receive leaves nothing at the
destination. That is so up to the end of the stream. In the publish loop it depends on where
the loop fails.

A path of the manifest may lead into the staging directory itself, and what happens there is
no matter. So the question is about the first path that leads out of it. If the loop does not
come to that path, or is stuck before it has done anything for it, the destination is as it
was; in all other cases something has been created, changed or removed
(`publishLoop_untouched_iff`), and a receive that fails then, be it for the confirmation that
it cannot send, has not left the destination alone (`receive_allOrNothing_iff`).
-/

namespace Tazamun.Oneshot

/-! ## What operations leave alone -/

/-- What has not been touched is as it was. -/
def Disk.Extends (d d' : Disk) : Prop :=
  ∀ p, d'.touched p = false → d.touched p = false ∧ d'.tree p = d.tree p

/-- Only the staging directory has been touched. -/
def Disk.StaysInside (d d' : Disk) : Prop :=
  ∀ p, inStaging p = false → d'.touched p = d.touched p

namespace Disk

variable {d d' d'' : Disk}

theorem Extends.refl : Extends d d := fun _ h => ⟨h, rfl⟩

theorem Extends.trans (h : Extends d d') (h' : Extends d' d'') : Extends d d'' := by
  intro p hp
  obtain ⟨hmid, htree⟩ := h' p hp
  obtain ⟨hfirst, htree'⟩ := h p hmid
  exact ⟨hfirst, htree.trans htree'⟩

theorem Extends.touched (h : Extends d d') {p : Place} (hp : d.touched p = true) :
    d'.touched p = true := by
  by_contra hno
  rw [(h p (Bool.not_eq_true _ ▸ hno)).1] at hp
  cases hp

theorem StaysInside.refl : StaysInside d d := fun _ _ => rfl

theorem StaysInside.trans (h : StaysInside d d') (h' : StaysInside d' d'') :
    StaysInside d d'' :=
  fun p hp => (h' p hp).trans (h p hp)

theorem touched_put (p : Place) (node : Option Node) : (d.put p node).touched p = true :=
  if_pos rfl

theorem extends_put (p : Place) (node : Option Node) : Extends d (d.put p node) := by
  intro q hq
  have hne : q ≠ p := by
    rintro rfl
    rw [touched_put] at hq
    cases hq
  unfold put at hq ⊢
  dsimp only at hq ⊢
  rw [if_neg hne] at hq ⊢
  exact ⟨hq, rfl⟩

theorem staysInside_put {p : Place} (hp : inStaging p = true) (node : Option Node) :
    StaysInside d (d.put p node) := by
  intro q hq
  refine if_neg ?_
  rintro rfl
  rw [hp] at hq
  cases hq

end Disk

open Disk

variable {d d' : Disk}

theorem createDirs_extends (mkdir : Place → Bool) (top : Place) (names : List Segment)
    (d : Disk) : Extends d (createDirs mkdir top names d).2 := by
  induction names generalizing top d with
  | nil => exact .refl
  | cons name rest ih =>
      unfold createDirs
      split
      · exact ih _ _
      · exact .refl
      · split
        · exact (extends_put _ _).trans (ih _ _)
        · exact .refl

theorem setWritable_extends (ok : Bool) (p : Place) (d : Disk) :
    Extends d (setWritable ok p d) := by
  unfold setWritable
  split
  · split
    · exact extends_put _ _
    · exact .refl
  · exact .refl

theorem removeFile_extends (ok : Bool) (p : Place) (d : Disk) :
    Extends d (removeFile ok p d) := by
  unfold removeFile
  split
  · split
    · exact extends_put _ _
    · exact .refl
  · exact .refl

/-- A rename is two changes. -/
theorem rename_some {ok : Bool} {src dst : Place} (h : rename ok src dst d = some d') :
    ∃ bytes mode, d' = (d.put src none).put dst (some (.file bytes mode)) := by
  unfold rename at h
  split at h
  · cases h
  · split at h
    · cases h
      exact ⟨_, _, rfl⟩
    · cases h
  · cases h

theorem install_extends (io : PublishIo) (part : Place) (path : String) (d : Disk) :
    Extends d (install io part path d).2 := by
  have hready := (setWritable_extends io.chmod (segments path) d).trans
    (removeFile_extends io.remove (segments path) _)
  unfold install
  dsimp only
  split
  · rename_i c hren
    obtain ⟨bytes, mode, rfl⟩ := rename_some hren
    exact (hready.trans (extends_put _ _)).trans (extends_put _ _)
  · exact hready

theorem publishEntry_extends (io : PublishIo) (part : Place) (path : String) (d : Disk) :
    Extends d (publishEntry io part path d).2 := by
  have hmade := createDirs_extends io.mkdir [] (segments path).dropLast d
  unfold publishEntry
  split
  · rename_i b hb
    rw [hb] at hmade
    exact hmade
  · rename_i b hb
    rw [hb] at hmade
    exact hmade.trans (install_extends io part path b)

theorem publishLoop_extends (io : Nat → PublishIo) (id : Segment) (i : Nat) (paths : List String)
    (d : Disk) : Extends d (publishLoop io id i paths d).2 := by
  induction paths generalizing i d with
  | nil => exact .refl
  | cons path rest ih =>
      have hentry := publishEntry_extends (io i) (partPlace id i) path d
      unfold publishLoop
      split
      · rename_i b hb
        rw [hb] at hentry
        exact hentry.trans (ih _ _)
      · rename_i e b hb
        rw [hb] at hentry
        exact hentry

/-! ## Paths into the staging directory -/

theorem inStaging_partPlace (id : Segment) (i : Nat) : inStaging (partPlace id i) = true :=
  beq_self_eq_true stagingDir

theorem inStaging_append {p : Place} (hp : p ≠ []) (q : Place) :
    inStaging (p ++ q) = inStaging p := by
  cases p with
  | nil => exact absurd rfl hp
  | cons name rest => rfl

theorem createDirs_inside (mkdir : Place → Bool) {top : Place} {names : List Segment}
    (h : ∀ name rest, names = name :: rest → inStaging (top ++ [name]) = true) (d : Disk) :
    StaysInside d (createDirs mkdir top names d).2 := by
  induction names generalizing top d with
  | nil => exact .refl
  | cons name rest ih =>
      have hhead := h name rest rfl
      have hrest : ∀ name' rest', rest = name' :: rest' →
          inStaging (top ++ [name] ++ [name']) = true := fun name' _ _ =>
        (inStaging_append (by simp) [name']).trans hhead
      unfold createDirs
      split
      · exact ih hrest d
      · exact .refl
      · split
        · exact (staysInside_put hhead _).trans (ih hrest _)
        · exact .refl

theorem setWritable_inside {p : Place} (hp : inStaging p = true) (ok : Bool) (d : Disk) :
    StaysInside d (setWritable ok p d) := by
  unfold setWritable
  split
  · split
    · exact staysInside_put hp _
    · exact .refl
  · exact .refl

theorem removeFile_inside {p : Place} (hp : inStaging p = true) (ok : Bool) (d : Disk) :
    StaysInside d (removeFile ok p d) := by
  unfold removeFile
  split
  · split
    · exact staysInside_put hp _
    · exact .refl
  · exact .refl

theorem install_inside (io : PublishIo) {part : Place} (hpart : inStaging part = true)
    {path : String} (hp : inStaging (segments path) = true) (d : Disk) :
    StaysInside d (install io part path d).2 := by
  have hready := (setWritable_inside hp io.chmod d).trans (removeFile_inside hp io.remove _)
  unfold install
  dsimp only
  split
  · rename_i c hren
    obtain ⟨bytes, mode, rfl⟩ := rename_some hren
    exact (hready.trans (staysInside_put hpart _)).trans (staysInside_put hp _)
  · exact hready

/-- **A path into the staging directory** is published there, or fails there. -/
theorem publishEntry_inside (io : PublishIo) {part : Place} (hpart : inStaging part = true)
    {path : String} (hp : inStaging (segments path) = true) (d : Disk) :
    StaysInside d (publishEntry io part path d).2 := by
  have hdirs : ∀ name rest, (segments path).dropLast = name :: rest →
      inStaging ([] ++ [name]) = true := by
    intro name rest hcut
    obtain ⟨t, ht⟩ := List.dropLast_prefix (segments path)
    rw [hcut] at ht
    rw [← ht] at hp
    exact hp
  have hmade := createDirs_inside io.mkdir hdirs d
  unfold publishEntry
  split
  · rename_i b hb
    rw [hb] at hmade
    exact hmade
  · rename_i b hb
    rw [hb] at hmade
    exact hmade.trans (install_inside io hpart hp b)

/-! ## Paths out of it -/

/-- All of the directories are there. -/
def AllDirs (tree : Place → Option Node) : Place → List Segment → Prop
  | _, [] => True
  | top, name :: rest => tree (top ++ [name]) = some .dir ∧ AllDirs tree (top ++ [name]) rest

/-- The first directory that is not there is a file, or cannot be made. -/
def Stuck (mkdir : Place → Bool) (tree : Place → Option Node) : Place → List Segment → Prop
  | _, [] => False
  | top, name :: rest =>
      match tree (top ++ [name]) with
      | some .dir => Stuck mkdir tree (top ++ [name]) rest
      | some (.file _ _) => True
      | none => mkdir (top ++ [name]) = false

def IsFile : Option Node → Prop
  | some (.file _ _) => True
  | _ => False

/-- The rename fails, and what comes before it does nothing: a directory is in place, or a
file that is writable, or stays as it is, and cannot be removed. -/
def RenameBlocked (io : PublishIo) (tree : Place → Option Node) (part place : Place) : Prop :=
  match tree place with
  | some .dir => True
  | none => io.rename = false ∨ ¬ IsFile (tree part)
  | some (.file _ mode) => (io.chmod = false ∨ mode = 0o644) ∧ io.remove = false ∧
      (io.rename = false ∨ ¬ IsFile (tree part))

/-- Nothing is done for the path before it fails. -/
def Blocked (io : PublishIo) (tree : Place → Option Node) (part place : Place) : Prop :=
  Stuck io.mkdir tree [] place.dropLast ∨
    AllDirs tree [] place.dropLast ∧ RenameBlocked io tree part place

theorem createDirs_allDirs (mkdir : Place → Bool) {top : Place} {names : List Segment}
    (h : AllDirs d.tree top names) : createDirs mkdir top names d = (true, d) := by
  induction names generalizing top with
  | nil => rfl
  | cons name rest ih =>
      unfold createDirs
      rw [h.1]
      exact ih h.2

theorem createDirs_stuck {mkdir : Place → Bool} {top : Place} {names : List Segment}
    (h : Stuck mkdir d.tree top names) : createDirs mkdir top names d = (false, d) := by
  induction names generalizing top with
  | nil => exact h.elim
  | cons name rest ih =>
      unfold Stuck at h
      unfold createDirs
      cases hnode : d.tree (top ++ [name]) with
      | none =>
          simp only [hnode] at h
          simp [h]
      | some node =>
          cases node with
          | dir =>
              simp only [hnode] at h
              exact ih h
          | file bytes mode => rfl

/-- In all other cases a directory is made. -/
theorem createDirs_touched {mkdir : Place → Bool} {top : Place} {names : List Segment}
    (hall : ¬ AllDirs d.tree top names) (hstuck : ¬ Stuck mkdir d.tree top names) :
    ∃ q, q ≠ [] ∧ q <+: names ∧ (createDirs mkdir top names d).2.touched (top ++ q) = true := by
  induction names generalizing top with
  | nil => exact absurd trivial hall
  | cons name rest ih =>
      unfold AllDirs at hall
      unfold Stuck at hstuck
      unfold createDirs
      cases hnode : d.tree (top ++ [name]) with
      | none =>
          simp only [hnode] at hstuck
          have hmade : mkdir (top ++ [name]) = true := by simpa using hstuck
          dsimp only
          rw [if_pos hmade]
          refine ⟨[name], by simp, List.cons_prefix_cons.mpr ⟨rfl, List.nil_prefix⟩, ?_⟩
          exact (createDirs_extends mkdir _ rest _).touched (touched_put _ _)
      | some node =>
          cases node with
          | dir =>
              simp only [hnode] at hstuck
              obtain ⟨q, -, hpre, htouched⟩ := ih (fun h => hall ⟨hnode, h⟩) hstuck
              refine ⟨name :: q, by simp, List.cons_prefix_cons.mpr ⟨rfl, hpre⟩, ?_⟩
              rw [List.append_assoc] at htouched
              exact htouched
          | file bytes mode =>
              simp only [hnode] at hstuck
              exact absurd trivial hstuck

theorem rename_eq_none {ok : Bool} {src dst : Place} :
    rename ok src dst d = none ↔
      d.tree dst = some .dir ∨ ok = false ∨ ¬ IsFile (d.tree src) := by
  unfold rename IsFile
  cases hsrc : d.tree src with
  | none => simp
  | some node =>
      cases node with
      | dir => simp
      | file bytes mode =>
          cases hdst : d.tree dst with
          | none => simp
          | some node => cases node <;> simp

theorem setWritable_eq {ok : Bool} {p : Place}
    (h : ∀ bytes mode, d.tree p = some (.file bytes mode) → ok = false ∨ mode = 0o644) :
    setWritable ok p d = d := by
  unfold setWritable
  split
  · rename_i bytes mode hfile
    refine if_neg ?_
    rcases h bytes mode hfile with hno | hmode
    · simp [hno]
    · simp [hmode]
  · rfl

theorem removeFile_eq {ok : Bool} {p : Place} (h : IsFile (d.tree p) → ok = false) :
    removeFile ok p d = d := by
  unfold removeFile
  split
  · rename_i hfile
    rw [h (by rw [hfile]; trivial)]
    rfl
  · rfl

/-- If it has not touched the place, it was blocked; and then it has done nothing. -/
theorem install_blocked_iff {io : PublishIo} {part : Place} {path : String}
    (hclean : d.touched (segments path) = false) :
    ((install io part path d).2.touched (segments path) = false ↔
      RenameBlocked io d.tree part (segments path)) ∧
    (RenameBlocked io d.tree part (segments path) →
      install io part path d = (some (.publishing path), d)) := by
  have hblocked : RenameBlocked io d.tree part (segments path) →
      install io part path d = (some (.publishing path), d) := by
    intro h
    have hmode : setWritable io.chmod (segments path) d = d := by
      refine setWritable_eq fun bytes mode hfile => ?_
      rw [RenameBlocked, hfile] at h
      exact h.1
    have hremove : removeFile io.remove (segments path) d = d := by
      refine removeFile_eq fun hfile => ?_
      unfold RenameBlocked at h
      split at h
      · rename_i hdir
        rw [hdir] at hfile
        exact hfile.elim
      · rename_i hnone
        rw [hnone] at hfile
        exact hfile.elim
      · exact h.2.1
    have hren : rename io.rename part (segments path) d = none := by
      rw [rename_eq_none]
      unfold RenameBlocked at h
      split at h
      · rename_i hdir
        exact .inl hdir
      · exact .inr h
      · exact .inr h.2.2
    unfold install
    dsimp only
    rw [hmode, hremove, hren]
  refine ⟨⟨fun hquiet => ?_, fun h => ?_⟩, hblocked⟩
  · have hnone : rename io.rename part (segments path)
        (removeFile io.remove (segments path) (setWritable io.chmod (segments path) d)) = none := by
      unfold install at hquiet
      dsimp only at hquiet
      split at hquiet
      · rename_i c hren
        obtain ⟨bytes, mode, rfl⟩ := rename_some hren
        rw [touched_put] at hquiet
        cases hquiet
      · assumption
    have hready : (removeFile io.remove (segments path)
        (setWritable io.chmod (segments path) d)).touched (segments path) = false := by
      unfold install at hquiet
      dsimp only at hquiet
      rw [hnone] at hquiet
      exact hquiet
    have hfirst := (removeFile_extends io.remove (segments path) _ _ hready).1
    unfold RenameBlocked
    split
    · trivial
    · rename_i habsent
      have hno : ¬ IsFile (d.tree (segments path)) := by rw [habsent]; exact id
      rw [setWritable_eq (by rw [habsent]; rintro _ _ ⟨⟩), removeFile_eq fun h => absurd h hno,
        rename_eq_none, habsent] at hnone
      exact hnone.resolve_left (by rintro ⟨⟩)
    · rename_i bytes mode hfile
      have hmode : io.chmod = false ∨ mode = 0o644 := by
        by_contra hno
        obtain ⟨hchmod, hmode⟩ := not_or.mp hno
        unfold setWritable at hfirst
        rw [hfile] at hfirst
        dsimp only at hfirst
        rw [if_pos (by simp [hchmod, hmode]), touched_put] at hfirst
        cases hfirst
      rw [setWritable_eq (by rw [hfile]; rintro _ _ ⟨⟩; exact hmode)] at hready hnone
      have hremove : io.remove = false := by
        by_contra hno
        unfold removeFile at hready
        rw [hfile] at hready
        dsimp only at hready
        rw [if_pos (by simpa using hno), touched_put] at hready
        cases hready
      rw [removeFile_eq fun _ => hremove, rename_eq_none, hfile] at hnone
      exact ⟨hmode, hremove, hnone.resolve_left (by rintro ⟨⟩)⟩
  · rw [hblocked h]
    exact hclean

/-- **A blocked path fails, and nothing has changed.** -/
theorem publishEntry_blocked {io : PublishIo} {part : Place} {path : String}
    (hclean : d.touched (segments path) = false)
    (h : Blocked io d.tree part (segments path)) :
    ∃ e, publishEntry io part path d = (some e, d) := by
  unfold publishEntry
  rcases h with hstuck | ⟨hall, hren⟩
  · rw [createDirs_stuck hstuck]
    exact ⟨_, rfl⟩
  · rw [createDirs_allDirs _ hall]
    exact ⟨_, (install_blocked_iff hclean).2 hren⟩

/-- **A path that leads out and touches nothing there was blocked**, whether it is published
or not. -/
theorem blocked_of_untouched {io : PublishIo} {part : Place} {path : String}
    (hclean : d.touched (segments path) = false)
    (hout : inStaging (segments path) = false)
    (h : ∀ p, inStaging p = false → (publishEntry io part path d).2.touched p = false) :
    Blocked io d.tree part (segments path) := by
  by_cases hall : AllDirs d.tree [] (segments path).dropLast
  · refine .inr ⟨hall, (install_blocked_iff hclean).1.mp ?_⟩
    have hplace := h (segments path) hout
    unfold publishEntry at hplace
    rw [createDirs_allDirs _ hall] at hplace
    exact hplace
  · by_contra hno
    obtain ⟨hstuck, -⟩ := not_or.mp hno
    obtain ⟨q, hq, hpre, htouched⟩ := createDirs_touched hall hstuck
    obtain ⟨t, ht⟩ := hpre.trans (List.dropLast_prefix (segments path))
    have hqout : inStaging q = false := by
      rw [← inStaging_append hq t, ht]
      exact hout
    have hquiet := h q hqout
    have hkept : (publishEntry io part path d).2.touched q = true := by
      unfold publishEntry
      split
      · rename_i b hb
        rw [hb] at htouched
        exact htouched
      · rename_i b hb
        rw [hb] at htouched
        exact (install_extends io part path b).touched htouched
    rw [hkept] at hquiet
    cases hquiet

/-! ## The loop -/

/-- The destination has not been touched. -/
def Disk.Untouched (d : Disk) : Prop := ∀ p, inStaging p = false → d.touched p = false

/-- The first path that leads out of the staging directory, if the loop comes to it, is
blocked in the state that it finds. -/
def Spares (io : Nat → PublishIo) (id : Segment) (i : Nat) (paths : List String) (d : Disk) :
    Prop :=
  ∀ pre path post, paths = pre ++ path :: post →
    (∀ q ∈ pre, inStaging (segments q) = true) → inStaging (segments path) = false →
    (publishLoop io id i pre d).1 = none →
    Blocked (io (i + pre.length)) (publishLoop io id i pre d).2.tree
      (partPlace id (i + pre.length)) (segments path)

/-- **The publish loop leaves the destination alone** exactly if it is stuck with the first
path that leads out of the staging directory. -/
theorem publishLoop_untouched_iff (io : Nat → PublishIo) (id : Segment) (i : Nat)
    (paths : List String) (hd : d.Untouched) :
    (publishLoop io id i paths d).2.Untouched ↔ Spares io id i paths d := by
  induction paths generalizing i d with
  | nil =>
      refine ⟨fun _ pre path post h => ?_, fun _ => hd⟩
      exact absurd h.symm (by simp)
  | cons path rest ih =>
      cases hin : inStaging (segments path) with
      | true =>
          have hinside := publishEntry_inside (io i) (inStaging_partPlace id i) hin d
          have hafter : (publishEntry (io i) (partPlace id i) path d).2.Untouched :=
            fun p hp => (hinside p hp).trans (hd p hp)
          have hskip : ∀ {pre : List String} {q : String} {post : List String},
              path :: rest = pre ++ q :: post → inStaging (segments q) = false →
              ∃ pre', pre = path :: pre' ∧ rest = pre' ++ q :: post := by
            intro pre q post h hout
            cases pre with
            | nil =>
                cases h
                rw [hin] at hout
                cases hout
            | cons x pre' =>
                cases h
                exact ⟨pre', rfl, rfl⟩
          cases hentry : publishEntry (io i) (partPlace id i) path d with
          | mk failure b =>
              rw [hentry] at hafter
              cases failure with
              | some e =>
                  have hloop : ∀ l, publishLoop io id i (path :: l) d = (some e, b) := by
                    intro l
                    rw [publishLoop, hentry]
                  rw [hloop]
                  refine ⟨fun _ pre q post h _ hout hnone => ?_, fun _ => hafter⟩
                  obtain ⟨pre', rfl, -⟩ := hskip h hout
                  rw [hloop] at hnone
                  cases hnone
              | none =>
                  have hloop : ∀ l,
                      publishLoop io id i (path :: l) d = publishLoop io id (i + 1) l b := by
                    intro l
                    rw [publishLoop, hentry]
                  rw [hloop, ih (i + 1) hafter]
                  have hshift : ∀ pre' : List String,
                      i + (path :: pre').length = i + 1 + pre'.length := by
                    intro pre'
                    rw [List.length_cons]
                    omega
                  constructor
                  · intro hs pre q post h hpre hout hnone
                    obtain ⟨pre', rfl, hrest⟩ := hskip h hout
                    rw [hloop] at hnone ⊢
                    rw [hshift]
                    exact hs pre' q post hrest (fun x hx => hpre x (List.mem_cons_of_mem _ hx))
                      hout hnone
                  · intro hs pre' q post h hpre hout hnone
                    have hgot := hs (path :: pre') q post (by rw [h]; rfl) (fun x hx => ?_) hout
                    · rw [hloop, hshift] at hgot
                      exact hgot hnone
                    · rcases List.mem_cons.mp hx with rfl | hx
                      · exact hin
                      · exact hpre x hx
      | false =>
          have hclean := hd (segments path) hin
          have hfirst : Spares io id i (path :: rest) d ↔
              Blocked (io i) d.tree (partPlace id i) (segments path) := by
            constructor
            · intro hs
              exact hs [] path rest rfl (by simp) hin rfl
            · intro hb pre q post h hpre hout _
              cases pre with
              | nil =>
                  cases h
                  exact hb
              | cons x pre' =>
                  cases h
                  rw [hpre path List.mem_cons_self] at hin
                  cases hin
          rw [hfirst]
          constructor
          · intro hquiet
            refine blocked_of_untouched hclean hin fun p hp => ?_
            by_contra htouched
            have hlater : (publishLoop io id i (path :: rest) d).2.touched p = true := by
              have hno := Bool.not_eq_false _ ▸ htouched
              unfold publishLoop
              split
              · rename_i b hb
                rw [hb] at hno
                exact (publishLoop_extends io id (i + 1) rest b).touched hno
              · rename_i e b hb
                rw [hb] at hno
                exact hno
            rw [hquiet p hp] at hlater
            cases hlater
          · intro hb
            obtain ⟨e, he⟩ := publishEntry_blocked hclean hb
            unfold publishLoop
            rw [he]
            exact hd

/-! ## The whole receive -/

/-- The directory before the receive. -/
def Disk.fresh (tree : Place → Option Node) : Disk := ⟨tree, fun _ => false⟩

theorem stage_inside (d : Disk) (id : Segment) (parts : List Bytes) :
    StaysInside d (d.stage id parts) ∧ Extends d (d.stage id parts) := by
  unfold stage
  generalize parts.zipIdx = es
  induction es generalizing d with
  | nil => exact ⟨.refl, .refl⟩
  | cons e es ih =>
      obtain ⟨hin, hext⟩ := ih (d.put (partPlace id e.2) (some (.file e.1 0o644)))
      exact ⟨(staysInside_put (inStaging_partPlace id e.2) _).trans hin,
        (extends_put _ _).trans hext⟩

theorem clear_inside (d : Disk) (removes : Place → Bool) :
    StaysInside d (d.clear removes) ∧ Extends d (d.clear removes) := by
  refine ⟨fun p hp => ?_, fun p hp => ?_⟩
  · simp [clear, hp]
  · obtain ⟨hno, hold⟩ := Bool.or_eq_false_iff.mp hp
    refine ⟨hold, ?_⟩
    unfold clear
    dsimp only
    rw [hno, if_neg Bool.false_ne_true]

theorem untouched_iff (h : StaysInside d d') : d'.Untouched ↔ d.Untouched :=
  ⟨fun hu p hp => (h p hp).symm.trans (hu p hp), fun hu p hp => (h p hp).trans (hu p hp)⟩

variable {ck : Chunker}

/-- What comes after the stream is the publication. -/
theorem receive_eq_fetch (io : RecvIo) (staging : Nat → Option Bytes) (dest : Map String Bytes)
    (talk : Conversation String) :
    receive ck (fun path => (sanitizeRelPath path).isOk) io staging dest talk =
      match fetch ck io staging talk with
      | .error e => .error e
      | .ok (entries, parts) => finish io entries dest parts [.allDone] := by
  unfold receive fetch
  cases talk.offer with
  | none => rfl
  | some m =>
      cases m with
      | manifest entries =>
          dsimp only
          cases validateManifest (fun path => (sanitizeRelPath path).isOk) entries with
          | error e => rfl
          | ok u =>
              dsimp only
              split
              · rfl
              · split
                · rfl
                · cases recvEntries ck io.part 0 (entries.zip (plan ck io.part staging entries))
                    (talk.stream ((plan ck io.part staging entries).map Prod.fst)) with
                  | error e => rfl
                  | ok r =>
                      obtain ⟨parts, frames⟩ := r
                      cases frames with
                      | nil => rfl
                      | cons m frames => cases m <;> rfl
      | _ => rfl

/-- **A receive has left the destination alone**, if it fails or not, exactly if it did not come
to the publish loop, or was stuck there with the first path that leads out of the staging
directory. What has not been touched is as it was. -/
theorem receive_allOrNothing_iff (ck : Chunker) (io : RecvIo) (ctx : PublishCtx)
    (staging : Nat → Option Bytes) (talk : Conversation String) (tree : Place → Option Node) :
    ((receiveInto ck io ctx staging talk (.fresh tree)).2.Untouched ↔
      ∀ entries parts, fetch ck io staging talk = .ok (entries, parts) →
        Spares ctx.entry (ctx.manifestId entries) 0 (entries.map SendEntry.path)
          (Disk.stage (.fresh tree) (ctx.manifestId entries) parts)) ∧
    ∀ p, (receiveInto ck io ctx staging talk (.fresh tree)).2.touched p = false →
      (receiveInto ck io ctx staging talk (.fresh tree)).2.tree p = tree p := by
  have hfresh : (Disk.fresh tree).Untouched := fun _ _ => rfl
  unfold receiveInto
  cases hfetch : fetch ck io staging talk with
  | error err =>
      refine ⟨⟨fun _ => ?_, fun _ => hfresh⟩, fun _ _ => rfl⟩
      rintro entries parts ⟨⟩
  | ok r =>
      obtain ⟨entries, parts⟩ := r
      obtain ⟨hin, hext⟩ := stage_inside (.fresh tree) (ctx.manifestId entries) parts
      have hloop := publishLoop_untouched_iff ctx.entry (ctx.manifestId entries) 0
        (entries.map SendEntry.path) ((untouched_iff hin).mpr hfresh)
      have hkept := hext.trans (publishLoop_extends ctx.entry (ctx.manifestId entries) 0
        (entries.map SendEntry.path) _)
      have honly : (∀ entries' parts', (.ok (entries, parts) : Except (RecvError String) _) =
          .ok (entries', parts') → Spares ctx.entry (ctx.manifestId entries') 0
            (entries'.map SendEntry.path)
            (Disk.stage (.fresh tree) (ctx.manifestId entries') parts')) ↔
          Spares ctx.entry (ctx.manifestId entries) 0 (entries.map SendEntry.path)
            (Disk.stage (.fresh tree) (ctx.manifestId entries) parts) := by
        refine ⟨fun h => h entries parts rfl, ?_⟩
        rintro h entries' parts' ⟨⟩
        exact h
      dsimp only
      rw [honly, ← hloop]
      generalize publishLoop ctx.entry (ctx.manifestId entries) 0 (entries.map SendEntry.path)
        (Disk.stage (.fresh tree) (ctx.manifestId entries) parts) = out at hkept ⊢
      obtain ⟨failure, b⟩ := out
      cases failure with
      | some e => exact ⟨Iff.rfl, fun p hp => (hkept p hp).2⟩
      | none =>
          -- the confirmation has failed, and everything is in place
          obtain ⟨hcin, hcext⟩ := clear_inside b ctx.clears
          exact ⟨untouched_iff hcin, fun p hp => ((hkept.trans hcext) p hp).2⟩

/-! ## Failures -/

/-- The sender offers files of one byte. -/
def offerOf (paths : List String) : Conversation String where
  offer := some (.manifest (paths.map fun path => ⟨path, 1, [⟨byteCode [7], 1⟩]⟩))
  stream _ := paths.flatMap (fun _ => [.chunk [7], .entryDone]) ++ [.allDone]

/-- All operations succeed, but for some renames. -/
def publishCtx (renames : Nat → Bool) : PublishCtx where
  manifestId _ := "0".toList
  entry i := ⟨fun _ => true, true, true, renames i⟩
  clears _ := true

/-- The destination has something at the path `a`. -/
def treeWith (node : Node) : Place → Option Node := fun p =>
  if p = ["a".toList] then some node else none

/-- A file of the user is in place of `a`, and the rename fails. -/
def lostFile : Option Failure × Disk :=
  receiveInto slabCutter (smallIo true) (publishCtx fun _ => false) (fun _ => none)
    (offerOf ["a"]) (.fresh (treeWith (.file [1] 0o644)))

/-- The manifest has a file `a`, and one in a directory `a`. -/
def halfPublished : Option Failure × Disk :=
  receiveInto slabCutter (smallIo true) (publishCtx fun _ => true) (fun _ => none)
    (offerOf ["a", "a/b"]) (.fresh fun _ => none)

/-- The confirmation is not sent. -/
def unconfirmed : Option Failure × Disk :=
  receiveInto slabCutter { smallIo true with confirms := false } (publishCtx fun _ => true)
    (fun _ => none) (offerOf ["a"]) (.fresh fun _ => none)

/-- All three fail. The file of the user is gone in the first, and the other two have published
`a`. -/
theorem receive_leaves_traces :
    (lostFile.1 = some (.publishing "a") ∧ lostFile.2.tree ["a".toList] = none) ∧
    (halfPublished.1 = some (.directory "a/b") ∧
      halfPublished.2.tree ["a".toList] = some (.file [7] 0o644)) ∧
    unconfirmed.1 = some .confirm ∧
      unconfirmed.2.tree ["a".toList] = some (.file [7] 0o644) := by
  decide +kernel

end Tazamun.Oneshot
