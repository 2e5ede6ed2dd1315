import Mathlib.Tactic

/-!
# Programs of commands and loops

A program is a sequence of commands and loops; a loop tests the state before
every pass through its body. A machine says what commands and tests do; both
may stop the program. Runs are compared command by command, and a machine
whose commands are blocks of commands runs like the one for the commands.
-/

namespace StudyCode.LoopCode

/-- Programs over a type of commands. -/
inductive Code (α : Type) where
  /-- The end of a program. -/
  | nil
  /-- A command and the rest. -/
  | seq (a : α) (rest : Code α)
  /-- A loop and the rest. -/
  | loop (body rest : Code α)
  deriving DecidableEq

/-- What a run has come to. -/
inductive Result (ε σ : Type) where
  /-- The fuel is used up. -/
  | more
  /-- The program was stopped. -/
  | fail (e : ε)
  /-- The program has ended. -/
  | done (s : σ)

/-- The meaning of commands and tests. -/
structure Machine (α ε σ : Type) where
  /-- A command. -/
  act : α → σ → Except ε σ
  /-- The test of a loop. -/
  test : σ → Except ε Bool

variable {α β ε ε' σ : Type}

/-- Run a program. -/
def Machine.exec (M : Machine α ε σ) : ℕ → Code α → σ → Result ε σ
  | 0,_,_ => .more
  | _+1,.nil,s => .done s
  | n+1,.seq a rest,s =>
    match M.act a s with
    | .ok t => M.exec n rest t
    | .error e => .fail e
  | n+1,.loop body rest,s =>
    match M.test s with
    | .ok true =>
      match M.exec n body s with
      | .done t => M.exec n (.loop body rest) t
      | .fail e => .fail e
      | .more => .more
    | .ok false => M.exec n rest s
    | .error e => .fail e

/-- A program ends in a state. -/
def Machine.Ends (M : Machine α ε σ) (c : Code α) (s t : σ) : Prop := ∃ n,M.exec n c s=.done t

/-- A program runs for ever. -/
def Machine.Diverges (M : Machine α ε σ) (c : Code α) (s : σ) : Prop := ∀ n,M.exec n c s=.more

/-- More fuel changes nothing about a run that has ended or was stopped. -/
theorem Machine.exec_mono (M : Machine α ε σ) {n : ℕ} {c : Code α} {s : σ} {r : Result ε σ}
    (h : M.exec n c s=r) (hr : r≠.more) : ∀ {m : ℕ},n ≤ m → M.exec m c s=r := by
  induction n generalizing c s r with
  | zero => exact absurd h.symm hr
  | succ n ih =>
    rintro (_ | m) hm
    · omega
    replace hm : n ≤ m := by omega
    cases c with
    | nil => exact h
    | seq a rest =>
      rw [exec] at h ⊢
      cases hact : M.act a s with
      | ok t =>
        rw [hact] at h
        exact ih h hr hm
      | error e =>
        rw [hact] at h
        exact h
    | loop body rest =>
      rw [exec] at h ⊢
      cases htest : M.test s with
      | error e =>
        rw [htest] at h
        exact h
      | ok b =>
        rw [htest] at h
        cases b with
        | false => exact ih h hr hm
        | true =>
          dsimp only at h ⊢
          cases hbody : M.exec n body s with
          | more =>
            rw [hbody] at h
            exact absurd h.symm hr
          | fail e =>
            rw [hbody] at h
            rw [ih hbody (by simp) hm]
            exact h
          | done t =>
            rw [hbody] at h
            rw [ih hbody (by simp) hm]
            exact ih h hr hm

/-! ## What every run keeps -/

/-- A property of states that commands keep holds at the end, and only errors that
commands and tests give there stop the program. -/
theorem Machine.exec_inv (M : Machine α ε σ) {I : σ → Prop} {Q : ε → Prop}
    (hact : ∀ a s t,I s → M.act a s=.ok t → I t) (herr : ∀ a s e,I s → M.act a s=.error e → Q e)
    (htest : ∀ s e,I s → M.test s=.error e → Q e) (n : ℕ) (c : Code α) (s : σ) (hs : I s) :
    (∀ t,M.exec n c s=.done t → I t) ∧ ∀ e,M.exec n c s=.fail e → Q e := by
  induction n generalizing c s with
  | zero => exact ⟨fun t h => by simp [exec] at h,fun e h => by simp [exec] at h⟩
  | succ n ih =>
    cases c with
    | nil =>
      refine ⟨fun t h => ?_,fun e h => by simp [exec] at h⟩
      simp only [exec,Result.done.injEq] at h
      exact h ▸ hs
    | seq a rest =>
      rw [exec]
      cases ha : M.act a s with
      | ok t => exact ih rest t (hact a s t hs ha)
      | error e =>
        refine ⟨fun t h => by simp at h,fun f h => ?_⟩
        simp only [Result.fail.injEq] at h
        exact h ▸ herr a s e hs ha
    | loop body rest =>
      rw [exec]
      cases ht : M.test s with
      | error e =>
        refine ⟨fun t h => by simp at h,fun f h => ?_⟩
        simp only [Result.fail.injEq] at h
        exact h ▸ htest s e hs ht
      | ok b =>
        cases b with
        | false => exact ih rest s hs
        | true =>
          dsimp only
          cases hbody : M.exec n body s with
          | more => exact ⟨fun t h => by simp at h,fun f h => by simp at h⟩
          | fail e =>
            refine ⟨fun t h => by simp at h,fun f h => ?_⟩
            simp only [Result.fail.injEq] at h
            exact h ▸ (ih body s hs).2 e hbody
          | done t => exact ih (.loop body rest) t ((ih body s hs).1 t hbody)

/-! ## Two machines -/

/-- Every command of a program has a property. -/
def Code.All (P : α → Prop) : Code α → Prop
  | .nil => True
  | .seq a rest => P a ∧ rest.All P
  | .loop body rest => body.All P ∧ rest.All P

/-- What holds of all instructions may be weakened. -/
theorem Code.All.imp {P Q : α → Prop} {c : Code α} (h : c.All P) (hPQ : ∀ a,P a → Q a) :
    c.All Q := by
  induction c with
  | nil => trivial
  | seq a rest ih => exact ⟨hPQ a h.1,ih h.2⟩
  | loop body rest ihb ihr => exact ⟨ihb h.1,ihr h.2⟩

/-- Two facts hold of all instructions together. -/
theorem Code.All.and {P Q : α → Prop} {c : Code α} (h : c.All P) (h' : c.All Q) :
    c.All fun a => P a ∧ Q a := by
  induction c with
  | nil => trivial
  | seq a rest ih => exact ⟨⟨h.1,h'.1⟩,ih h.2 h'.2⟩
  | loop body rest ihb ihr => exact ⟨ihb h.1 h'.1,ihr h.2 h'.2⟩

/-- One run comes to the same as another, unless it is stopped. -/
inductive Result.Below : Result ε σ → Result ε' σ → Prop where
  /-- Both have used up the fuel. -/
  | more : Below .more .more
  /-- Both have ended. -/
  | done (s : σ) : Below (.done s) (.done s)
  /-- The first was stopped. -/
  | fail (e : ε) (r : Result ε' σ) : Below (.fail e) r

/-- Anything is above a run that needs more. -/
theorem Result.Below.eq_more {r : Result ε' σ} (h : (Result.more : Result ε σ).Below r) :
    r=.more := by
  cases h
  rfl

/-- Only the same end is above an end. -/
theorem Result.Below.eq_done {s : σ} {r : Result ε' σ} (h : (Result.done s : Result ε σ).Below r) :
    r=.done s := by
  cases h
  rfl

/-- A machine follows another on some commands: in states that the first one keeps,
what it does without an error the second does too. -/
structure Follows (M : Machine α ε σ) (M' : Machine α ε' σ) (P : α → Prop) (I : σ → Prop) :
    Prop where
  /-- The states are kept. -/
  keeps : ∀ a s t,I s → M.act a s=.ok t → I t
  /-- Commands. -/
  act : ∀ a,P a → ∀ s t,I s → M.act a s=.ok t → M'.act a s=.ok t
  /-- Tests. -/
  test : ∀ s b,I s → M.test s=.ok b → M'.test s=.ok b

section Follows

variable {M : Machine α ε σ} {M' : Machine α ε' σ} {P : α → Prop} {I : σ → Prop}

/-- A machine that follows another does so on programs. -/
theorem Follows.exec (h : Follows M M' P I) (n : ℕ) (c : Code α) (s : σ) (hc : c.All P)
    (hs : I s) : (M.exec n c s).Below (M'.exec n c s) := by
  induction n generalizing c s with
  | zero => exact .more
  | succ n ih =>
    cases c with
    | nil => exact .done s
    | seq a rest =>
      rw [Machine.exec,Machine.exec]
      cases ha : M.act a s with
      | error e => exact .fail e _
      | ok t =>
        rw [h.act a hc.1 s t hs ha]
        exact ih rest t hc.2 (h.keeps a s t hs ha)
    | loop body rest =>
      rw [Machine.exec,Machine.exec]
      cases ht : M.test s with
      | error e => exact .fail e _
      | ok b =>
        rw [h.test s b hs ht]
        cases b with
        | false => exact ih rest s hc.2 hs
        | true =>
          dsimp only
          have hbody := ih body s hc.1 hs
          cases hr : M.exec n body s with
          | fail e => exact .fail e _
          | more =>
            rw [hr] at hbody
            rw [hbody.eq_more]
            exact .more
          | done t =>
            rw [hr] at hbody
            rw [hbody.eq_done]
            have hkept := (M.exec_inv (Q:=fun _ => True) h.keeps (fun _ _ _ _ _ => trivial)
              (fun _ _ _ _ => trivial) n body s hs).1 t hr
            exact ih (.loop body rest) t hc hkept

/-- It ends where the other ends. -/
theorem Follows.ends (h : Follows M M' P I) {c : Code α} (hc : c.All P) {s t : σ} (hs : I s)
    (he : M.Ends c s t) : M'.Ends c s t := by
  obtain ⟨n,hn⟩ := he
  have hb := h.exec n c s hc hs
  rw [hn] at hb
  exact ⟨n,hb.eq_done⟩

/-- It goes on where the other goes on. -/
theorem Follows.diverges (h : Follows M M' P I) {c : Code α} (hc : c.All P) {s : σ} (hs : I s)
    (hd : M.Diverges c s) : M'.Diverges c s := fun n => by
  have hb := h.exec n c s hc hs
  rw [hd n] at hb
  exact hb.eq_more

end Follows

/-! ## Commands under another name -/

/-- Replace every command. -/
def Code.map (f : α → β) : Code α → Code β
  | .nil => .nil
  | .seq a rest => .seq (f a) (rest.map f)
  | .loop body rest => .loop (body.map f) (rest.map f)

/-- What holds of renamed instructions. -/
theorem Code.All.of_map {f : α → β} {P : β → Prop} {c : Code α} (h : (c.map f).All P) :
    c.All fun a => P (f a) := by
  induction c with
  | nil => trivial
  | seq a rest ih => exact ⟨h.1,ih h.2⟩
  | loop body rest ihb ihr => exact ⟨ihb h.1,ihr h.2⟩

/-- The machine that runs a command by what it stands for. -/
def Machine.named (M : Machine β ε σ) (f : α → β) : Machine α ε σ := ⟨fun a => M.act (f a),M.test⟩

/-- A renamed program runs on the machine with the names. -/
theorem Machine.exec_map (M : Machine β ε σ) (f : α → β) (n : ℕ) (c : Code α) (s : σ) :
    M.exec n (c.map f) s=(M.named f).exec n c s := by
  induction n generalizing c s with
  | zero => rfl
  | succ n ih =>
    cases c with
    | nil => rfl
    | seq a rest =>
      rw [Code.map,exec,exec]
      simp only [ih]
      rfl
    | loop body rest =>
      have hloop : ∀ t,M.exec n (.loop (body.map f) (rest.map f)) t=
          (M.named f).exec n (.loop body rest) t := ih (.loop body rest)
      rw [Code.map,exec,exec]
      simp only [ih,hloop]
      rfl

/-! ## Blocks of commands -/

/-- A sequence of commands before a program. -/
def Code.after (c : Code α) (l : List α) : Code α := l.foldr .seq c

/-- The program of the commands of all blocks. A block is a command with what follows it. -/
def Code.flatten : Code (α×List α) → Code α
  | .nil => .nil
  | .seq a rest => .seq a.1 (rest.flatten.after a.2)
  | .loop body rest => .loop body.flatten rest.flatten

/-- Commands one after another. -/
def Machine.acts (M : Machine α ε σ) : List α → σ → Except ε σ
  | [],s => .ok s
  | a::l,s =>
    match M.act a s with
    | .ok t => M.acts l t
    | .error e => .error e

/-- The machine whose commands are blocks. -/
def Machine.block (M : Machine α ε σ) : Machine (α×List α) ε σ := ⟨fun a => M.acts (a.1::a.2),M.test⟩

/-- Instructions in front of a program that succeed. -/
theorem Machine.exec_after_ok (M : Machine α ε σ) {l : List α} {s t : σ} (h : M.acts l s=.ok t)
    (n : ℕ) (c : Code α) : M.exec (n+l.length) (c.after l) s=M.exec n c t := by
  induction l generalizing s with
  | nil =>
    cases h
    rfl
  | cons a l ih =>
    rw [acts] at h
    cases ha : M.act a s with
    | error e =>
      rw [ha] at h
      cases h
    | ok u =>
      rw [ha] at h
      have hrest := ih h
      rw [List.length_cons,←Nat.add_assoc]
      change M.exec (n+l.length+1) (.seq a (c.after l)) s=_
      rw [exec,ha]
      exact hrest

/-- Instructions in front of a program that fail. -/
theorem Machine.exec_after_error (M : Machine α ε σ) {l : List α} {s : σ} {e : ε}
    (h : M.acts l s=.error e) (n : ℕ) (c : Code α) :
    M.exec (n+l.length) (c.after l) s=.fail e := by
  induction l generalizing s with
  | nil => cases h
  | cons a l ih =>
    rw [acts] at h
    rw [List.length_cons,←Nat.add_assoc]
    change M.exec (n+l.length+1) (.seq a (c.after l)) s=_
    rw [exec]
    cases ha : M.act a s with
    | error f =>
      rw [ha] at h
      cases h
      rfl
    | ok u =>
      rw [ha] at h
      exact ih h

/-- What the blocks come to, the commands come to. -/
theorem Machine.exec_flatten (M : Machine α ε σ) {n : ℕ} {c : Code (α×List α)} {s : σ}
    {r : Result ε σ} (h : M.block.exec n c s=r) (hr : r≠.more) :
    ∃ m,M.exec m c.flatten s=r := by
  induction n generalizing c s r with
  | zero => exact absurd h.symm hr
  | succ n ih =>
    cases c with
    | nil => exact ⟨1,h⟩
    | seq a rest =>
      rw [exec] at h
      have hcode : (Code.seq a rest).flatten=rest.flatten.after (a.1::a.2) := rfl
      cases ha : M.acts (a.1::a.2) s with
      | ok t =>
        have hb : M.block.act a s=.ok t := ha
        rw [hb] at h
        obtain ⟨m,hm⟩ := ih h hr
        exact ⟨m+(a.1::a.2).length,by rw [hcode,M.exec_after_ok ha,hm]⟩
      | error e =>
        have hb : M.block.act a s=.error e := ha
        rw [hb] at h
        exact ⟨0+(a.1::a.2).length,by rw [hcode,M.exec_after_error ha,←h]⟩
    | loop body rest =>
      rw [exec] at h
      have htest : M.block.test s=M.test s := rfl
      rw [htest] at h
      cases ht : M.test s with
      | error e =>
        rw [ht] at h
        exact ⟨1,by rw [Code.flatten,exec,ht];exact h⟩
      | ok b =>
        rw [ht] at h
        cases b with
        | false =>
          obtain ⟨m,hm⟩ := ih h hr
          exact ⟨m+1,by rw [Code.flatten,exec,ht];exact hm⟩
        | true =>
          dsimp only at h
          cases hbody : M.block.exec n body s with
          | more =>
            rw [hbody] at h
            exact absurd h.symm hr
          | fail e =>
            rw [hbody] at h
            obtain ⟨m,hm⟩ := ih hbody (by simp)
            refine ⟨m+1,?_⟩
            rw [Code.flatten,exec,ht]
            dsimp only
            rw [hm]
            exact h
          | done t =>
            rw [hbody] at h
            obtain ⟨m,hm⟩ := ih hbody (by simp)
            obtain ⟨k,hk⟩ := ih h hr
            refine ⟨max m k+1,?_⟩
            rw [Code.flatten,exec,ht]
            dsimp only
            rw [M.exec_mono hm (by simp) (le_max_left m k)]
            exact M.exec_mono hk hr (le_max_right m k)

/-- How a run behind some instructions ends. -/
theorem Machine.exec_after_cases (M : Machine α ε σ) {l : List α} {n : ℕ} {c : Code α} {s : σ}
    {r : Result ε σ} (h : M.exec n (c.after l) s=r) (hr : r≠.more) :
    (∃ t k,M.acts l s=.ok t ∧ n=k+l.length ∧ M.exec k c t=r) ∨
      ∃ e,M.acts l s=.error e ∧ r=.fail e := by
  induction l generalizing n s with
  | nil => exact Or.inl ⟨s,n,rfl,rfl,h⟩
  | cons a l ih =>
    cases n with
    | zero => exact absurd h.symm hr
    | succ n =>
      change M.exec (n+1) (.seq a (c.after l)) s=r at h
      rw [exec] at h
      rw [acts]
      cases ha : M.act a s with
      | error e =>
        rw [ha] at h
        exact Or.inr ⟨e,rfl,h.symm⟩
      | ok u =>
        rw [ha] at h
        obtain ⟨t,k,ht,hn,hk⟩ | herr := ih h
        · exact Or.inl ⟨t,k,ht,by rw [hn,List.length_cons,Nat.add_assoc],hk⟩
        · exact Or.inr herr

/-- What the commands come to, the blocks come to, with no more fuel. -/
theorem Machine.exec_blocks (M : Machine α ε σ) {n : ℕ} {c : Code (α×List α)} {s : σ}
    {r : Result ε σ} (h : M.exec n c.flatten s=r) (hr : r≠.more) : M.block.exec n c s=r := by
  induction n using Nat.strong_induction_on generalizing c s r with
  | _ n ih =>
    cases c with
    | nil =>
      cases n with
      | zero => exact absurd h.symm hr
      | succ n => exact h
    | seq a rest =>
      have hcode : (Code.seq a rest).flatten=rest.flatten.after (a.1::a.2) := rfl
      rw [hcode] at h
      obtain ⟨t,k,ht,hn,hk⟩ | ⟨e,he,hre⟩ := M.exec_after_cases h hr
      · have hlt : k < n := by
          rw [hn,List.length_cons]
          omega
        have hrest := ih k hlt hk hr
        have hb : M.block.act a s=.ok t := ht
        obtain ⟨m,rfl⟩ : ∃ m,n=m+1 := ⟨n-1,by omega⟩
        rw [exec,hb]
        exact M.block.exec_mono hrest hr (by omega)
      · have hb : M.block.act a s=.error e := he
        cases n with
        | zero => exact absurd h.symm hr
        | succ n =>
          rw [exec,hb]
          exact hre.symm
    | loop body rest =>
      cases n with
      | zero => exact absurd h.symm hr
      | succ n =>
        rw [Code.flatten,exec] at h
        rw [exec]
        have htest : M.block.test s=M.test s := rfl
        rw [htest]
        cases ht : M.test s with
        | error e =>
          rw [ht] at h
          exact h
        | ok b =>
          rw [ht] at h
          cases b with
          | false => exact ih n (Nat.lt_succ_self n) h hr
          | true =>
            dsimp only at h ⊢
            cases hbody : M.exec n body.flatten s with
            | more =>
              rw [hbody] at h
              exact absurd h.symm hr
            | fail e =>
              rw [hbody] at h
              rw [ih n (Nat.lt_succ_self n) hbody (by simp)]
              exact h
            | done t =>
              rw [hbody] at h
              rw [ih n (Nat.lt_succ_self n) hbody (by simp)]
              exact ih n (Nat.lt_succ_self n) (c:=.loop body rest) h hr

/-- A program of blocks ends as the flat one. -/
theorem Machine.block_ends (M : Machine α ε σ) (c : Code (α×List α)) (s t : σ) :
    M.block.Ends c s t ↔ M.Ends c.flatten s t := by
  constructor
  · rintro ⟨n,hn⟩
    exact M.exec_flatten hn (by simp)
  · rintro ⟨n,hn⟩
    exact ⟨n,M.exec_blocks hn (by simp)⟩

/-- A program of blocks goes on as the flat one. -/
theorem Machine.block_diverges (M : Machine α ε σ) (c : Code (α×List α)) (s : σ) :
    M.block.Diverges c s ↔ M.Diverges c.flatten s := by
  constructor
  · intro h n
    by_contra hn
    rw [←M.exec_blocks rfl hn,h n] at hn
    exact hn rfl
  · intro h n
    by_contra hn
    obtain ⟨m,hm⟩ := M.exec_flatten rfl hn
    rw [←hm,h m] at hn
    exact hn rfl

end StudyCode.LoopCode
