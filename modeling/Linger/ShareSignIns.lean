import Linger.StepMachine
import Linger.FiniteMap

/-! The share window's sign-ins: one run at a time keeps one for every server signed in, renews what
is old and forgets what the app has left. Each call of the shell and of a server may fail in its own
way. -/
namespace Linger.ShareSignIns
open FiniteMap StepMachine

abbrev BaseUrl := ℕ
abbrev Token := ℕ

def renewAfterMs : ℕ := 14 * 24 * 60 * 60 * 1000

inductive ShareStatus
  | ready
  | none
  | old
deriving DecidableEq

/-- What the shell keeps for a server. -/
structure Kept where
  token : Token
  savedAt : ℕ
deriving DecidableEq

abbrev Shell := FMap BaseUrl Kept

/-- `keepShareSignIns`'s arguments: the servers connected, those signed in, and when it was
called. -/
structure Args where
  servers : List BaseUrl
  signedIn : List BaseUrl
  now : ℕ
deriving DecidableEq

/-- What a run awaits. `rest` is the servers, or the kept ones, it has not come to. -/
inductive Stage
  | savedAt (server : BaseUrl) (rest : List BaseUrl)
  | shareSignIn (server : BaseUrl) (saved : Option ℕ) (rest : List BaseUrl)
  | save (server : BaseUrl) (saved : Option ℕ) (token : Token) (rest : List BaseUrl)
  | logoutReplaced (server : BaseUrl) (saved : Option ℕ) (token : Token) (rest : List BaseUrl)
  /-- It asks whether the shell kept the new one. -/
  | keeps (server : BaseUrl) (saved : Option ℕ) (token : Token) (rest : List BaseUrl)
  | logoutNew (server : BaseUrl) (rest : List BaseUrl)
  | kept
  | forget (server : BaseUrl) (rest : List BaseUrl)
  | logoutForgotten (rest : List BaseUrl)
  | ended (threw : Bool)
deriving DecidableEq

/-- How a call of the shell goes: done, refused, which changes nothing and answers with nothing, or
rejected, with its work done or not. -/
inductive Answer
  | done
  | refused
  | rejected (took : Bool)
deriving DecidableEq

/-- What a server makes of asking for a sign-in. -/
inductive SignedIn
  | token (token : Token)
  | notFound
  | failed
deriving DecidableEq

/-- A run, and what it did: the sign-ins it got, those the shell no longer keeps by its doing, those
handed to `logout`, the servers it came to, those it asked the shell to forget, how listing the kept
ones went, and whether every shell call succeeded. -/
structure Run where
  args : Args
  stage : Stage
  status : FMap BaseUrl ShareStatus
  obtained : List (BaseUrl × Token)
  dropped : List (BaseUrl × Token)
  handed : List (BaseUrl × Token)
  turns : List BaseUrl
  forgets : List BaseUrl
  listed : Option Answer
  allDone : Bool

/-- The next server's turn, or the kept ones. -/
def Run.turnTo (run : Run) : List BaseUrl → Run
  | [] => { run with stage := .kept }
  | server :: rest => { run with stage := .savedAt server rest, turns := server :: run.turns }

/-- The next of the kept ones the app is no longer signed in to. -/
def Run.forgetFrom (run : Run) : List BaseUrl → Run
  | [] => { run with stage := .ended false }
  | server :: rest =>
    if server ∈ run.args.signedIn then run.forgetFrom rest
    else { run with stage := .forget server rest, forgets := server :: run.forgets }

def Run.start (args : Args) : Run :=
  (⟨args, .kept, ∅, [], [], [], [], [], none, true⟩ : Run).turnTo args.servers

def Run.tells (run : Run) (server : BaseUrl) (status : ShareStatus) : Run :=
  { run with status := run.status.insert server status }

/-- What a failed renewal leaves: one still within its 30 days goes on working. -/
def stillReady (saved : Option ℕ) : ShareStatus := if saved.isSome then .ready else .none

def tokenAt (shell : Shell) (server : BaseUrl) : Option Token := (shell[server]?).map Kept.token

def savedAt (shell : Shell) (server : BaseUrl) : Option ℕ := (shell[server]?).map Kept.savedAt

def Run.drops (run : Run) (server : BaseUrl) (token : Option Token) : Run :=
  { run with dropped := token.toList.map (server, ·) ++ run.dropped }

/-- `logout`, best effort. -/
def Run.hands (run : Run) (server : BaseUrl) (token : Token) : Run :=
  { run with handed := (server, token) :: run.handed }

/-- A shell call or a logout settles; `at` is when the shell saves, by its own clock. -/
def Run.settles (run : Run) (shell : Shell) (answer : Answer) (moment : ℕ) : Option (Run × Shell) :=
  match run.stage with
  | .savedAt server rest =>
    let saved := if answer = .done then savedAt shell server else none
    match answer with
    | .rejected _ => some ({ run with stage := .ended true, allDone := false }, shell)
    | _ =>
      let run := { run with allDone := run.allDone && answer = Answer.done }
      if saved.any fun saved => run.args.now < saved + renewAfterMs then
        some ((run.tells server .ready).turnTo rest, shell)
      else some ({ run with stage := .shareSignIn server saved rest }, shell)
  | .save server saved token rest =>
    let replaced := tokenAt shell server
    match answer with
    | .done =>
      let shell := shell.insert server ⟨token, moment⟩
      match replaced with
      | none => some ({ run with stage := .keeps server saved token rest }, shell)
      | some old =>
        some ((({ run with stage := .logoutReplaced server saved token rest } : Run).drops server
          (some old)).hands
          server old, shell)
    | .refused =>
      some ({ run with stage := .keeps server saved token rest, allDone := false }, shell)
    | .rejected took =>
      let run := (({ run with allDone := false } : Run).tells server (stillReady saved)).turnTo rest
      if took then some (run.drops server replaced, shell.insert server ⟨token, moment⟩)
        else some (run, shell)
  | .logoutReplaced server saved token rest =>
    some ({ run with stage := .keeps server saved token rest }, shell)
  | .keeps server saved token rest =>
    match answer with
    | .rejected _ =>
      some ((({ run with allDone := false } : Run).tells server (stillReady saved)).turnTo rest,
        shell)
    | _ =>
      let run := { run with allDone := run.allDone && answer = Answer.done }
      if answer = .done ∧ (tokenAt shell server).isSome then
        some ((run.tells server .ready).turnTo rest, shell)
      -- The Keychain may refuse: then the new one is signed out again, not left about.
      else some (({ run with stage := .logoutNew server rest } : Run).hands server token, shell)
  | .logoutNew server rest => some ((run.tells server .none).turnTo rest, shell)
  | .kept =>
    let run := { run with listed := some answer }
    match answer with
    | .done => some (run.forgetFrom (shell.toList.map Prod.fst), shell)
    | .refused => some (({ run with allDone := false } : Run).forgetFrom [], shell)
    | .rejected _ => some ({ run with stage := .ended true, allDone := false }, shell)
  | .forget server rest =>
    let token := tokenAt shell server
    match answer with
    | .done =>
      let shell := shell.erase server
      match token with
      | none => some (run.forgetFrom rest, shell)
      | some token =>
        some ((({ run with stage := .logoutForgotten rest } : Run).drops server (some token)).hands
          server token, shell)
    | .refused => some (({ run with allDone := false } : Run).forgetFrom rest, shell)
    | .rejected took =>
      let run := { run with stage := .ended true, allDone := false }
      if took then some (run.drops server token, shell.erase server) else some (run, shell)
  | .logoutForgotten rest => some (run.forgetFrom rest, shell)
  | _ => none

/-- A server answers a run that asks for a sign-in. -/
def Run.signsIn (run : Run) (answer : SignedIn) : Option Run :=
  match run.stage with
  | .shareSignIn server saved rest =>
    match answer with
    | .token token =>
      some { run with
        stage := .save server saved token rest, obtained := (server, token) :: run.obtained }
    | .notFound => some ((run.tells server .old).turnTo rest)
    | .failed => some ((run.tells server (stillReady saved)).turnTo rest)
  | _ => none

/-- The queue of runs: what the shell keeps, the runs that wait, the one under way, and each that
ended with what the shell then kept. -/
structure Queue where
  shell : Shell
  waiting : List Args
  running : Option Run
  past : List (Run × Shell)

def Queue.new (shell : Shell) : Queue := ⟨shell, [], none, []⟩

inductive Event
  | queue (args : Args)
  /-- The run before has settled. -/
  | starts
  | settles (answer : Answer) (moment : ℕ)
  | signsIn (answer : SignedIn)
deriving DecidableEq

/-- A run goes on, or makes room for the next. -/
def Queue.goesOn (queue : Queue) (run : Run) (shell : Shell) : Queue :=
  match run.stage with
  | .ended _ => { queue with shell := shell, running := none, past := (run, shell) :: queue.past }
  | _ => { queue with shell := shell, running := some run }

def Queue.step (queue : Queue) : Event → Option Queue
  | .queue args => some { queue with waiting := queue.waiting ++ [args] }
  | .starts =>
    match queue.running, queue.waiting with
    | none, args :: waiting =>
      some { queue with waiting := waiting, running := some (Run.start args) }
    | _, _ => none
  | .settles answer moment =>
    queue.running.bind fun run => (run.settles queue.shell answer moment).map fun (run, shell) =>
      queue.goesOn run shell
  | .signsIn answer => queue.running.bind fun run => (run.signsIn answer).map fun run =>
    queue.goesOn run queue.shell

def machine (shell : Shell) : Machine Queue Event := ⟨.new shell, Queue.step⟩

/-- What a run leaves. -/
structure Clean (run : Run) (shell : Shell) : Prop where
  /-- A sign-in it got is kept for its server, or was handed to `logout`. -/
  obtained : ∀ server token, (server, token) ∈ run.obtained →
    tokenAt shell server = some token ∨ (server, token) ∈ run.handed
  /-- One it replaced or forgot was handed to `logout`. -/
  dropped : ∀ got ∈ run.dropped, got ∈ run.handed
  /-- If its shell calls succeeded, none is kept for a server the app has left. -/
  left : run.allDone = true → ∀ server, (tokenAt shell server).isSome = true →
    server ∈ run.args.signedIn
  /-- Every server had its turn. -/
  turns : ∀ server ∈ run.args.servers, server ∈ run.turns
  /-- And every one kept that the app has left was to be forgotten, unless the shell would not list
  them. -/
  forgets : ∀ server, (tokenAt shell server).isSome = true → server ∉ run.args.signedIn →
    server ∈ run.forgets ∨ ∃ answer ≠ Answer.done, run.listed = some answer

/-- A call may fail, but not so that a sign-in is lost or another server's turn: a save is not
rejected before it is done, nor refused or rejected where one is kept for that server; asking
whether it is kept is not rejected where it is not; a server's first question and a forgetting are
not rejected with anything left to do, nor a forgetting that is done. -/
def Spares (shell : Shell) (run : Run) (answer : Answer) : Prop :=
  match run.stage, answer with
  | .savedAt _ rest, .rejected _ =>
    rest = [] ∧ ∀ server ∈ shell.toList.map Prod.fst, server ∈ run.args.signedIn
  | .save server _ _ _, .refused => tokenAt shell server = none
  | .save server _ _ _, .rejected took => took = true ∧ tokenAt shell server = none
  | .keeps server _ token _, .rejected _ => tokenAt shell server = some token
  | .forget _ rest, .rejected took => took = false ∧ ∀ server ∈ rest, server ∈ run.args.signedIn
  | _, _ => True

def Allowed (queue : Queue) : Event → Prop
  | .settles answer _ => ∀ run ∈ queue.running, Spares queue.shell run answer
  | _ => True

section Invariant
variable {shell : Shell} {run : Run} {server : BaseUrl} {token : Token} {rest : List BaseUrl}

/-- Nothing is lost of what the run got, replaced or forgot. -/
structure Safe (shell : Shell) (run : Run) : Prop where
  obtained : ∀ server token, (server, token) ∈ run.obtained →
    tokenAt shell server = some token ∨ (server, token) ∈ run.handed
  dropped : ∀ got ∈ run.dropped, got ∈ run.handed

/-- The same but for one the run holds and has not handed on. -/
structure SafeBut (shell : Shell) (run : Run) (server : BaseUrl) (token : Token) : Prop where
  obtained : ∀ server' token', (server', token') ∈ run.obtained →
    tokenAt shell server' = some token' ∨ (server', token') ∈ run.handed ∨
      (server', token') = (server, token)
  dropped : ∀ got ∈ run.dropped, got ∈ run.handed

/-- Every server had its turn, but for those left. -/
def Turns (run : Run) (rest : List BaseUrl) : Prop :=
  ∀ server ∈ run.args.servers, server ∈ run.turns ∨ server ∈ rest

/-- What is kept for a server the app has left is still to be forgotten, or was not when it should
have been. -/
def Left (shell : Shell) (run : Run) (rest : List BaseUrl) : Prop :=
  ∀ server, (tokenAt shell server).isSome = true → server ∉ run.args.signedIn →
    server ∈ rest ∨ (server ∈ run.forgets ∧ run.allDone = false)

/-- How a run stands, by what it awaits. -/
def Fits (shell : Shell) (run : Run) : Prop :=
  match run.stage with
  | .savedAt _ rest => Safe shell run ∧ Turns run rest
  | .shareSignIn _ _ rest => Safe shell run ∧ Turns run rest
  | .save server _ token rest => SafeBut shell run server token ∧ Turns run rest
  | .logoutReplaced server _ token rest =>
    Safe shell run ∧ Turns run rest ∧ tokenAt shell server = some token
  | .keeps server _ token rest =>
    SafeBut shell run server token ∧ Turns run rest ∧
      (tokenAt shell server = some token ∨ tokenAt shell server = none)
  | .logoutNew _ rest => Safe shell run ∧ Turns run rest
  | .kept => Safe shell run ∧ Turns run []
  | .forget server rest =>
    Safe shell run ∧ Turns run [] ∧ Left shell run (server :: rest) ∧ server ∈ run.forgets
  | .logoutForgotten rest => Safe shell run ∧ Turns run [] ∧ Left shell run rest
  | .ended _ => Clean run shell

theorem tokenAt_insert (shell : Shell) (server : BaseUrl) (kept : Kept) (other : BaseUrl) :
    tokenAt (shell.insert server kept) other = if server = other then some kept.token
      else tokenAt shell other := by
  rw [tokenAt, insert_at]
  by_cases h : server = other
  · simp [h]
  · have h' : ¬ other = server := fun heq => h heq.symm
    simp [h, h', tokenAt]

theorem tokenAt_erase (shell : Shell) (server other : BaseUrl) :
    tokenAt (shell.erase server) other = if server = other then none else tokenAt shell other := by
  rw [tokenAt, erase_at]
  by_cases h : server = other
  · simp [h]
  · have h' : ¬ other = server := fun heq => h heq.symm
    simp [h, h', tokenAt]

theorem tokenAt_isSome_iff (shell : Shell) (server : BaseUrl) :
    (tokenAt shell server).isSome = true ↔ server ∈ shell.toList.map Prod.fst := by
  rw [tokenAt, Option.isSome_map]
  constructor
  · intro h
    obtain ⟨kept, hkept⟩ := Option.isSome_iff_exists.mp h
    exact List.mem_map.mpr ⟨(server, kept),
      Std.ExtTreeMap.mem_toList_iff_getElem?_eq_some.mpr hkept, rfl⟩
  · intro h
    obtain ⟨⟨server', kept⟩, hmem, rfl⟩ := List.mem_map.mp h
    rw [Std.ExtTreeMap.mem_toList_iff_getElem?_eq_some.mp hmem]
    rfl

theorem Safe.but (h : Safe shell run) (server : BaseUrl) (token : Token) :
    SafeBut shell run server token where
  obtained server' token' hmem := (h.obtained server' token' hmem).imp_right Or.inl
  dropped := h.dropped

/-- It is safe once it is kept. -/
theorem SafeBut.safe_of_kept (h : SafeBut shell run server token)
    (hkept : tokenAt shell server = some token) :
    Safe shell run where
  obtained server' token' hmem := by
    rcases h.obtained server' token' hmem with hat | hhanded | heq
    · exact Or.inl hat
    · exact Or.inr hhanded
    · injection heq with hserver htoken
      rw [hserver, htoken]
      exact Or.inl hkept
  dropped := h.dropped

theorem turnTo_drops_none (run : Run) (server : BaseUrl) (rest : List BaseUrl) :
    (run.turnTo rest).drops server none = run.turnTo rest := by
  cases rest <;> rfl

theorem turnTo_fits (hsafe : Safe shell run) (hturns : Turns run rest) :
    Fits shell (run.turnTo rest) := by
  cases rest with
  | nil => exact ⟨⟨hsafe.obtained, hsafe.dropped⟩, hturns⟩
  | cons server rest =>
    refine ⟨⟨hsafe.obtained, hsafe.dropped⟩, fun other hother => ?_⟩
    rcases hturns other hother with hturn | hrest
    · exact Or.inl (List.mem_cons_of_mem _ hturn)
    · rcases List.mem_cons.mp hrest with heq | hmem
      · exact Or.inl (List.mem_cons.mpr (Or.inl heq))
      · exact Or.inr hmem

theorem forgetFrom_fits (hsafe : Safe shell run) (hturns : Turns run [])
    (hleft : Left shell run rest) :
    Fits shell (run.forgetFrom rest) := by
  induction rest with
  | nil =>
    refine ⟨hsafe.obtained, hsafe.dropped, fun hdone server hkept => ?_, fun server hmem => ?_,
      fun server hkept hnot => ?_⟩
    · by_contra hnot
      rcases hleft server hkept hnot with hnone | ⟨-, hfailed⟩
      · exact absurd hnone List.not_mem_nil
      · exact Bool.noConfusion (hdone.symm.trans hfailed)
    · exact (hturns server hmem).resolve_right List.not_mem_nil
    · rcases hleft server hkept hnot with hnone | ⟨hforgets, -⟩
      · exact absurd hnone List.not_mem_nil
      · exact Or.inl hforgets
  | cons server rest ih =>
    rw [Run.forgetFrom]
    split
    · next hsigned =>
      apply ih
      intro other hkept hnot
      rcases hleft other hkept hnot with hmem | hfailed
      · rcases List.mem_cons.mp hmem with heq | hrest
        · exact absurd (heq ▸ hsigned) hnot
        · exact Or.inl hrest
      · exact Or.inr hfailed
    · refine ⟨⟨hsafe.obtained, hsafe.dropped⟩, hturns, fun other hkept hnot => ?_,
        List.mem_cons_self⟩
      rcases hleft other hkept hnot with hmem | ⟨hforgets, hfailed⟩
      · exact Or.inl hmem
      · exact Or.inr ⟨List.mem_cons_of_mem _ hforgets, hfailed⟩

theorem start_fits (shell : Shell) (args : Args) : Fits shell (Run.start args) := by
  apply turnTo_fits
  · exact ⟨fun _ _ hmem => absurd hmem List.not_mem_nil, fun _ hmem => absurd hmem List.not_mem_nil⟩
  · exact fun server hmem => Or.inr hmem

/-- A run that a question's rejection ends leaves nothing undone, where nothing was left to do. -/
theorem ended_clean (hsafe : Safe shell run) (hturns : Turns run [])
    (hnone : ∀ server ∈ shell.toList.map Prod.fst, server ∈ run.args.signedIn) :
    Clean run shell where
  obtained := hsafe.obtained
  dropped := hsafe.dropped
  left _ server hkept := hnone server ((tokenAt_isSome_iff shell server).mp hkept)
  turns server hmem := (hturns server hmem).resolve_right List.not_mem_nil
  forgets server hkept hnot :=
    absurd (hnone server ((tokenAt_isSome_iff shell server).mp hkept)) hnot

/-- One more handed on, and the run holds nothing. -/
theorem SafeBut.hands (h : SafeBut shell run server token) :
    Safe shell (run.hands server token) where
  obtained server' token' hmem := by
    rcases h.obtained server' token' hmem with hat | hhanded | heq
    · exact Or.inl hat
    · exact Or.inr (List.mem_cons_of_mem _ hhanded)
    · rw [heq]
      exact Or.inr List.mem_cons_self
  dropped got hgot := List.mem_cons_of_mem _ (h.dropped got hgot)

/-- The shell takes the new one: what it kept there before is dropped, and handed on. -/
theorem SafeBut.saved (h : SafeBut shell run server token) (moment : ℕ)
    (hreplaced : ∀ old, tokenAt shell server = some old → (server, old) ∈ run.handed) :
    Safe (shell.insert server ⟨token, moment⟩) run where
  obtained server' token' hmem := by
    rw [tokenAt_insert]
    rcases h.obtained server' token' hmem with hat | hhanded | heq
    · by_cases hserver : server = server'
      · subst hserver
        exact Or.inr (hreplaced token' hat)
      · rw [if_neg hserver]
        exact Or.inl hat
    · exact Or.inr hhanded
    · injection heq with hserver htoken
      rw [if_pos hserver.symm, htoken]
      exact Or.inl rfl
  dropped := h.dropped

theorem Safe.erase (h : Safe shell run) (server : BaseUrl)
    (hgone : ∀ old, tokenAt shell server = some old → (server, old) ∈ run.handed) :
    Safe (shell.erase server) run where
  obtained server' token' hmem := by
    rw [tokenAt_erase]
    rcases h.obtained server' token' hmem with hat | hhanded
    · by_cases hserver : server = server'
      · subst hserver
        exact Or.inr (hgone token' hat)
      · rw [if_neg hserver]
        exact Or.inl hat
    · exact Or.inr hhanded
  dropped := h.dropped

section Settles
variable {run' : Run} {shell' : Shell} {answer : Answer} {moment : ℕ} {saved : Option ℕ}

theorem settles_savedAt (hstage : run.stage = .savedAt server rest) (h : Fits shell run)
    (hspares : Spares shell run answer)
    (hs : run.settles shell answer moment = some (run', shell')) :
    Fits shell' run' := by
  rw [Fits, hstage] at h
  obtain ⟨hsafe, hturns⟩ := h
  simp only [Run.settles, hstage] at hs
  have hmore : ∀ (allDone : Bool) (saved : Option ℕ),
      (if saved.any fun saved => run.args.now < saved + renewAfterMs then
        some (((({ run with allDone := allDone } : Run).tells server .ready).turnTo rest), shell)
      else some ({ run with stage := .shareSignIn server saved rest, allDone := allDone }, shell)) =
        some (run', shell') → Fits shell' run' := by
    intro allDone saved hs
    split at hs
    · injection hs with hs
      injection hs with hrun hshell
      rw [← hrun, ← hshell]
      exact turnTo_fits ⟨hsafe.obtained, hsafe.dropped⟩ hturns
    · injection hs with hs
      injection hs with hrun hshell
      rw [← hrun, ← hshell]
      exact ⟨⟨hsafe.obtained, hsafe.dropped⟩, hturns⟩
  cases answer with
  | done => exact hmore _ _ hs
  | refused => exact hmore _ _ hs
  | rejected took =>
    simp only [Spares, hstage] at hspares
    obtain ⟨hrest, hnone⟩ := hspares
    injection hs with hs
    injection hs with hrun hshell
    rw [← hrun, ← hshell]
    rw [hrest] at hturns
    exact ended_clean ⟨hsafe.obtained, hsafe.dropped⟩ hturns hnone

theorem settles_save (hstage : run.stage = .save server saved token rest) (h : Fits shell run)
    (hspares : Spares shell run answer)
    (hs : run.settles shell answer moment = some (run', shell')) :
    Fits shell' run' := by
  rw [Fits, hstage] at h
  obtain ⟨hsafe, hturns⟩ := h
  simp only [Run.settles, hstage] at hs
  simp only [Spares, hstage] at hspares
  have hat : tokenAt (shell.insert server ⟨token, moment⟩) server = some token := by
    rw [tokenAt_insert, if_pos rfl]
  cases answer with
  | done =>
    simp only at hs
    split at hs
    · next hnone =>
      injection hs with hs
      injection hs with hrun hshell
      rw [← hrun, ← hshell]
      have hsaved := hsafe.saved moment fun old hold => by rw [hnone] at hold; cases hold
      exact ⟨⟨(hsaved.but server token).obtained, hsaved.dropped⟩, hturns, Or.inl hat⟩
    · next old hold =>
      -- The one it replaces is handed on at once.
      injection hs with hs
      injection hs with hrun hshell
      rw [← hrun, ← hshell]
      have hbut : SafeBut shell ((run.drops server (some old)).hands server old) server token := by
        refine ⟨fun server' token' hmem => ?_, fun got hgot => ?_⟩
        · exact (hsafe.obtained server' token' hmem).imp_right
            (Or.imp_left (List.mem_cons_of_mem _))
        · rcases List.mem_append.mp hgot with hnew | hdropped
          · rw [List.mem_singleton.mp hnew]
            exact List.mem_cons_self
          · exact List.mem_cons_of_mem _ (hsafe.dropped got hdropped)
      have hsaved := hbut.saved moment fun older holder => by
        rw [hold] at holder
        rw [← Option.some.inj holder]
        exact List.mem_cons_self
      exact ⟨⟨hsaved.obtained, hsaved.dropped⟩, hturns, hat⟩
  | refused =>
    injection hs with hs
    injection hs with hrun hshell
    rw [← hrun, ← hshell]
    exact ⟨⟨hsafe.obtained, hsafe.dropped⟩, hturns, Or.inr hspares⟩
  | rejected took =>
    obtain ⟨htook, hnone⟩ := hspares
    simp only [htook, if_true, hnone] at hs
    injection hs with hs
    injection hs with hrun hshell
    rw [← hrun, ← hshell]
    have hsaved := hsafe.saved moment fun old hold => by rw [hnone] at hold; cases hold
    rw [turnTo_drops_none]
    exact turnTo_fits ⟨hsaved.obtained, hsaved.dropped⟩ hturns

theorem settles_keeps (hstage : run.stage = .keeps server saved token rest) (h : Fits shell run)
    (hspares : Spares shell run answer)
    (hs : run.settles shell answer moment = some (run', shell')) :
    Fits shell' run' := by
  rw [Fits, hstage] at h
  obtain ⟨hsafe, hturns, hat⟩ := h
  simp only [Run.settles, hstage] at hs
  have hhanded : ∀ allDone : Bool, Safe shell
      (({ run with stage := .logoutNew server rest, allDone := allDone } : Run).hands server
        token) := fun _ =>
    ⟨hsafe.hands.obtained, hsafe.hands.dropped⟩
  cases answer with
  | done =>
    simp only [true_and] at hs
    split at hs
    · next hsome =>
      have hkept :=
        hsafe.safe_of_kept (hat.resolve_right fun hnone => by rw [hnone] at hsome; cases hsome)
      injection hs with hs
      injection hs with hrun hshell
      rw [← hrun, ← hshell]
      exact turnTo_fits ⟨hkept.obtained, hkept.dropped⟩ hturns
    · injection hs with hs
      injection hs with hrun hshell
      rw [← hrun, ← hshell]
      exact ⟨hhanded _, hturns⟩
  | refused =>
    injection hs with hs
    injection hs with hrun hshell
    rw [← hrun, ← hshell]
    exact ⟨hhanded _, hturns⟩
  | rejected took =>
    simp only [Spares, hstage] at hspares
    have hkept := hsafe.safe_of_kept hspares
    injection hs with hs
    injection hs with hrun hshell
    rw [← hrun, ← hshell]
    exact turnTo_fits ⟨hkept.obtained, hkept.dropped⟩ hturns

theorem settles_kept (hstage : run.stage = .kept) (h : Fits shell run)
    (hs : run.settles shell answer moment = some (run', shell')) : Fits shell' run' := by
  rw [Fits, hstage] at h
  obtain ⟨hsafe, hturns⟩ := h
  simp only [Run.settles, hstage] at hs
  cases answer with
  | done =>
    injection hs with hs
    injection hs with hrun hshell
    rw [← hrun, ← hshell]
    apply forgetFrom_fits
    · exact ⟨hsafe.obtained, hsafe.dropped⟩
    · exact hturns
    · exact fun other hkept _ => Or.inl ((tokenAt_isSome_iff shell other).mp hkept)
  | refused =>
    injection hs with hs
    injection hs with hrun hshell
    rw [← hrun, ← hshell]
    exact ⟨hsafe.obtained, hsafe.dropped, fun hdone => (by cases hdone),
      fun other hmem => (hturns other hmem).resolve_right List.not_mem_nil,
      fun _ _ _ => Or.inr ⟨.refused, (by simp), rfl⟩⟩
  | rejected took =>
    injection hs with hs
    injection hs with hrun hshell
    rw [← hrun, ← hshell]
    exact ⟨hsafe.obtained, hsafe.dropped, fun hdone => (by cases hdone),
      fun other hmem => (hturns other hmem).resolve_right List.not_mem_nil,
      fun _ _ _ => Or.inr ⟨.rejected took, (by simp), rfl⟩⟩

theorem settles_forget (hstage : run.stage = .forget server rest) (h : Fits shell run)
    (hspares : Spares shell run answer)
    (hs : run.settles shell answer moment = some (run', shell')) :
    Fits shell' run' := by
  rw [Fits, hstage] at h
  obtain ⟨hsafe, hturns, hleft, hforgets⟩ := h
  simp only [Run.settles, hstage] at hs
  have herased : ∀ {other}, (tokenAt (shell.erase server) other).isSome = true →
      other ∉ run.args.signedIn → other ∈ rest ∨ (other ∈ run.forgets ∧ run.allDone = false) := by
    intro other hkept hnot
    rw [tokenAt_erase] at hkept
    split at hkept
    · cases hkept
    · next hne =>
      rcases hleft other hkept hnot with hmem | hfailed
      · exact Or.inl ((List.mem_cons.mp hmem).resolve_left fun heq => hne heq.symm)
      · exact Or.inr hfailed
  -- The entry is erased; a token that it had is handed back next.
  cases answer with
  | done =>
    simp only at hs
    split at hs
    · next hnone =>
      injection hs with hs
      injection hs with hrun hshell
      rw [← hrun, ← hshell]
      exact forgetFrom_fits
        (hsafe.erase server fun old hold => by rw [hnone] at hold; cases hold) hturns
        fun other hkept hnot => herased hkept hnot
    · next old hold =>
      injection hs with hs
      injection hs with hrun hshell
      rw [← hrun, ← hshell]
      have hhanded : Safe shell ((run.drops server (some old)).hands server old) := by
        refine ⟨fun server' token' hmem => ?_, fun got hgot => ?_⟩
        · exact (hsafe.obtained server' token' hmem).imp_right (List.mem_cons_of_mem _)
        · rcases List.mem_append.mp hgot with hnew | hdropped
          · rw [List.mem_singleton.mp hnew]
            exact List.mem_cons_self
          · exact List.mem_cons_of_mem _ (hsafe.dropped got hdropped)
      have hgone := hhanded.erase server fun older holder => by
        rw [hold] at holder
        rw [← Option.some.inj holder]
        exact List.mem_cons_self
      exact ⟨⟨hgone.obtained, hgone.dropped⟩, hturns, fun other hkept hnot => herased hkept hnot⟩
  -- A refusal leaves the entry, and the run will not say that all is done.
  | refused =>
    injection hs with hs
    injection hs with hrun hshell
    rw [← hrun, ← hshell]
    apply forgetFrom_fits
    · exact ⟨hsafe.obtained, hsafe.dropped⟩
    · exact hturns
    · intro other hkept hnot
      rcases hleft other hkept hnot with hmem | ⟨hforgot, -⟩
      · rcases List.mem_cons.mp hmem with heq | hrest
        · exact Or.inr ⟨heq ▸ hforgets, rfl⟩
        · exact Or.inl hrest
      · exact Or.inr ⟨hforgot, rfl⟩
  -- A call that throws ends the run; by the condition the rest are signed in.
  | rejected took =>
    simp only [Spares, hstage] at hspares
    obtain ⟨htook, hnone⟩ := hspares
    simp only [htook, Bool.false_eq_true, if_false] at hs
    injection hs with hs
    injection hs with hrun hshell
    rw [← hrun, ← hshell]
    refine ⟨hsafe.obtained, hsafe.dropped, fun hdone => (by cases hdone),
      fun other hmem => (hturns other hmem).resolve_right List.not_mem_nil,
      fun other hkept hnot => ?_⟩
    rcases hleft other hkept hnot with hmem | ⟨hforgot, -⟩
    · rcases List.mem_cons.mp hmem with heq | hrest
      · exact Or.inl (heq ▸ hforgets)
      · exact absurd (hnone other hrest) hnot
    · exact Or.inl hforgot

/-- Step lemma: a call that settles as allowed keeps the run in order. -/
theorem settles_fits (h : Fits shell run) (hspares : Spares shell run answer)
    (hs : run.settles shell answer moment = some (run', shell')) : Fits shell' run' := by
  cases hstage : run.stage with
  | savedAt server rest => exact settles_savedAt hstage h hspares hs
  | shareSignIn server saved rest => simp [Run.settles, hstage] at hs
  | save server saved token rest => exact settles_save hstage h hspares hs
  | logoutReplaced server saved token rest =>
    rw [Fits, hstage] at h
    obtain ⟨hsafe, hturns, hat⟩ := h
    simp only [Run.settles, hstage] at hs
    injection hs with hs
    injection hs with hrun hshell
    rw [← hrun, ← hshell]
    exact ⟨⟨(hsafe.but server token).obtained, hsafe.dropped⟩, hturns, Or.inl hat⟩
  | keeps server saved token rest => exact settles_keeps hstage h hspares hs
  | logoutNew server rest =>
    rw [Fits, hstage] at h
    obtain ⟨hsafe, hturns⟩ := h
    simp only [Run.settles, hstage] at hs
    injection hs with hs
    injection hs with hrun hshell
    rw [← hrun, ← hshell]
    exact turnTo_fits ⟨hsafe.obtained, hsafe.dropped⟩ hturns
  | kept => exact settles_kept hstage h hs
  | forget server rest => exact settles_forget hstage h hspares hs
  | logoutForgotten rest =>
    rw [Fits, hstage] at h
    obtain ⟨hsafe, hturns, hleft⟩ := h
    simp only [Run.settles, hstage] at hs
    injection hs with hs
    injection hs with hrun hshell
    rw [← hrun, ← hshell]
    exact forgetFrom_fits hsafe hturns hleft
  | ended threw => simp [Run.settles, hstage] at hs

theorem signsIn_fits {answer : SignedIn} (h : Fits shell run)
    (hs : run.signsIn answer = some run') : Fits shell run' := by
  cases hstage : run.stage with
  | shareSignIn server saved rest =>
    rw [Fits, hstage] at h
    obtain ⟨hsafe, hturns⟩ := h
    simp only [Run.signsIn, hstage] at hs
    cases answer with
    | token token =>
      rw [← Option.some.inj hs]
      refine ⟨⟨fun server' token' hmem => ?_, hsafe.dropped⟩, hturns⟩
      rcases List.mem_cons.mp hmem with heq | hold
      · exact Or.inr (Or.inr heq)
      · exact (hsafe.obtained server' token' hold).imp_right Or.inl
    | notFound =>
      rw [← Option.some.inj hs]
      exact turnTo_fits ⟨hsafe.obtained, hsafe.dropped⟩ hturns
    | failed =>
      rw [← Option.some.inj hs]
      exact turnTo_fits ⟨hsafe.obtained, hsafe.dropped⟩ hturns
  | _ => simp [Run.signsIn, hstage] at hs

end Settles
end Invariant

/-- What holds of the queue: the run under way is in order, and those that ended are clean. -/
structure Queue.Inv (queue : Queue) : Prop where
  running : ∀ run ∈ queue.running, Fits queue.shell run
  past : ∀ ended ∈ queue.past, Clean ended.1 ended.2

theorem goesOn_inv {queue : Queue} (h : queue.Inv) {run : Run} {shell : Shell}
    (hfits : Fits shell run) :
    (queue.goesOn run shell).Inv := by
  cases hstage : run.stage with
  | ended threw =>
    rw [Fits, hstage] at hfits
    rw [Queue.goesOn, hstage]
    refine ⟨fun run hrun => (by cases hrun), fun ended hended => ?_⟩
    rcases List.mem_cons.mp hended with heq | hold
    · rw [heq]
      exact hfits
    · exact h.past ended hold
  | _ =>
    rw [Queue.goesOn, hstage]
    refine ⟨fun run' hrun' => ?_, h.past⟩
    cases hrun'
    exact hfits

theorem step_inv {queue next : Queue} {event : Event} (h : queue.Inv)
    (hallowed : Allowed queue event)
    (hs : queue.step event = some next) : next.Inv := by
  cases event with
  | queue args =>
    rw [← Option.some.inj hs]
    exact ⟨h.running, h.past⟩
  | starts =>
    simp only [Queue.step] at hs
    split at hs
    · rw [← Option.some.inj hs]
      refine ⟨fun run hrun => ?_, h.past⟩
      rw [← Option.some.inj hrun]
      exact start_fits _ _
    · cases hs
  | settles answer moment =>
    obtain ⟨run, hrun, hs⟩ := Option.bind_eq_some_iff.mp hs
    obtain ⟨⟨run', shell'⟩, hsettles, rfl⟩ := Option.map_eq_some_iff.mp hs
    exact goesOn_inv h (settles_fits (h.running run hrun) (hallowed run hrun) hsettles)
  | signsIn answer =>
    obtain ⟨run, hrun, hs⟩ := Option.bind_eq_some_iff.mp hs
    obtain ⟨run', hsigns, rfl⟩ := Option.map_eq_some_iff.mp hs
    exact goesOn_inv h (signsIn_fits (h.running run hrun) hsigns)

/-- In every sequence of runs whose calls fail only as allowed, each run leaves no sign-in about. -/
theorem none_left_about (shell : Shell) (events : List Event) (queue : Queue)
    (hmeets : (machine shell).Meets Allowed events)
    (hrun : (machine shell).run events = some queue) :
    ∀ ended ∈ queue.past, Clean ended.1 ended.2 := by
  have hnew : (Queue.new shell).Inv :=
    ⟨fun run hrun => (by cases hrun), fun ended hended => absurd hended List.not_mem_nil⟩
  have hinv : queue.Inv :=
    (machine shell).invariant_of_meets hnew
      (fun _ _ _ h hallowed hs => step_inv h hallowed hs) hmeets hrun
  exact hinv.past

instance (shell : Shell) (run : Run) (answer : Answer) : Decidable (Spares shell run answer) := by
  unfold Spares
  split <;> infer_instance

instance (queue : Queue) (event : Event) : Decidable (Allowed queue event) := by
  unfold Allowed
  split <;> infer_instance

/-- One server is renewed, another's first one is refused by the shell, and a third is forgotten. -/
def renewed : List Event :=
  [.queue ⟨[1, 2], [1, 2], 2000000000⟩, .starts, .settles .done 0, .signsIn (.token 11),
    .settles .done 2000000000, .settles .done 0, .settles .done 0, .settles .done 0,
    .signsIn (.token 12), .settles .refused 0, .settles .done 0,
    .settles .done 0, .settles .done 0, .settles .done 0, .settles (.rejected false) 0]

def before : Shell := ((∅ : Shell).insert 1 ⟨1, 0⟩).insert 3 ⟨3, 0⟩

theorem none_left_about_renewed : ∃ queue run shell, (machine before).run renewed = some queue ∧
    queue.past = [(run, shell)] ∧ run.handed = [(3, 3), (2, 12), (1, 1)] ∧ Clean run shell := by
  obtain ⟨queue, hr⟩ := Option.isSome_iff_exists.mp
    (show ((machine before).run renewed).isSome = true by decide +kernel)
  have hend : ((machine before).run renewed).any (fun queue =>
      queue.past.map (fun ended => ended.1.handed) = [[(3, 3), (2, 12), (1, 1)]]) =
        true := by decide +kernel
  rw [hr] at hend
  obtain ⟨⟨run, shell⟩, hpast, hhanded⟩ := List.map_eq_singleton_iff.mp (of_decide_eq_true hend)
  refine ⟨queue, run, shell, hr, hpast, hhanded, ?_⟩
  exact none_left_about before renewed queue (by decide +kernel) hr (run, shell)
    (by rw [hpast]; exact List.mem_cons_self)

/-- A renewal the shell refuses while it keeps the old one; a save that is rejected; and a first
question that is rejected before another server's turn. -/
def failing : List (List Event) :=
  [[.queue ⟨[1], [1, 3], 2000000000⟩, .starts, .settles .done 0, .signsIn (.token 11),
    .settles .refused 0,
      .settles .done 0, .settles .done 0],
    [.queue ⟨[2], [1, 2, 3], 0⟩, .starts, .settles .done 0, .signsIn (.token 12),
      .settles (.rejected false) 0, .settles .done 0],
    [.queue ⟨[1, 2], [1, 2, 3], 0⟩, .starts, .settles (.rejected false) 0]]

theorem some_left_about : ¬ ∃ events ∈ failing, ∀ queue, (machine before).run events = some queue →
    ∀ ended ∈ queue.past, Clean ended.1 ended.2 := by
  have hall : ∀ events ∈ failing,
        ((machine before).run events).any (fun queue => queue.past.any fun ended =>
      (ended.1.obtained.any fun got => tokenAt ended.2 got.1 ≠ some got.2 ∧ got ∉ ended.1.handed) ||
        ended.1.args.servers.any fun server => server ∉ ended.1.turns) = true := by decide +kernel
  intro ⟨events, hmem, hclaim⟩
  obtain ⟨queue, hr, hbad⟩ := Option.any_eq_true _ _ |>.mp (hall events hmem)
  obtain ⟨ended, hended, hbad⟩ := List.any_eq_true.mp hbad
  have hclean := hclaim queue hr ended hended
  rcases Bool.or_eq_true_iff.mp hbad with hlost | hskipped
  · obtain ⟨⟨server, token⟩, hgot, hnot⟩ := List.any_eq_true.mp hlost
    obtain ⟨hkept, hhanded⟩ := of_decide_eq_true hnot
    rcases hclean.obtained server token hgot with hat | hin
    · exact hkept hat
    · exact hhanded hin
  · obtain ⟨server, hserver, hnot⟩ := List.any_eq_true.mp hskipped
    exact of_decide_eq_true hnot (hclean.turns server hserver)

end Linger.ShareSignIns
