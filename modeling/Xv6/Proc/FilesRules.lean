import Xv6.Proc.ForkRules

/-!
# Files, pipes and the console obey the discipline

None of this code touches the process table but through `sleep`, `wakeup` and
`killed`, so all of it keeps every frame.
-/

namespace Xv6

open Conc Conc.Machine

variable {K : Known} {t : Tid} {S : List Lock} {p : Slot} {α β γ : Type}

/-! ## The file system, seen from outside -/

theorem fsCall_moves : Moves K (.proc p) [] fsCall fun _ => [] := by
  refine .loop fun _ => input_moves.bind fun i => ?_
  split
  · rename_i lk chan
    have hl := Lock.plain_fs lk
    refine (acquire_moves hl).bind fun _ => (sleep_moves hl rfl).bind fun _ => ?_
    exact (release_moves hl).bind fun _ => .ret rfl
  · rename_i lk chan
    have hl := Lock.plain_fs lk
    refine (acquire_moves hl).bind fun _ => (wakeup_moves hl.noProc).bind fun _ => ?_
    exact (release_moves hl).bind fun _ => .ret rfl
  · exact .ret rfl
  · exact .ret rfl

/-! ## The file table -/

theorem modFile_moves {f : FileId} {g : File → File} : Moves K t S (modFile f g) fun _ => S :=
  write_moves (w := .data _) trivial

theorem modPipe_moves {pi : PipeId} {g : Pipe → Pipe} : Moves K t S (modPipe pi g) fun _ => S :=
  write_moves (w := .data _) trivial

theorem filealloc_moves : Moves K t S filealloc fun _ => S := by
  refine (acquire_moves Lock.plain_ftable).bind fun _ => read_moves.bind fun f => ?_
  cases f with
  | none => exact (release_moves Lock.plain_ftable).bind fun _ => .ret rfl
  | some f =>
    exact modFile_moves.bind fun _ => (release_moves Lock.plain_ftable).bind fun _ => .ret rfl

theorem pipeclose_moves {pi : PipeId} {writable : Bool} :
    Moves K t [] (pipeclose pi writable) fun _ => [] := by
  have hl := Lock.plain_pipe pi
  have hrest : Moves K t [.pipe pi] (do
      if ← read fun s => !(s.data.pipe pi).readopen && !(s.data.pipe pi).writeopen then
        release (.pipe pi)
        vm (kfree pi)
      else
        release (.pipe pi)) fun _ => [] :=
    read_moves.bind fun _ =>
      .ite ((release_moves hl).bind fun _ => vm_moves) (release_moves hl)
  refine (acquire_moves hl).bind fun _ => .ite ?_ ?_
  · exact modPipe_moves.bind fun _ => (wakeup_moves hl.noProc).bind fun _ => hrest
  · exact modPipe_moves.bind fun _ => (wakeup_moves hl.noProc).bind fun _ => hrest

theorem fileclose_moves {f : FileId} : Moves K (.proc p) [] (fileclose f) fun _ => [] := by
  refine (acquire_moves Lock.plain_ftable).bind fun _ => read_moves.bind fun r => ?_
  -- with or without the panic, the rest is the same
  refine (fun hrest => .ite (panic_moves.bind fun _ => hrest) hrest) ?_
  refine modFile_moves.bind fun _ => read_moves.bind fun ff => ?_
  refine .ite (release_moves Lock.plain_ftable) ?_
  refine modFile_moves.bind fun _ => (release_moves Lock.plain_ftable).bind fun _ => ?_
  cases ff.type with
  | none => exact .ret rfl
  | pipe pi => exact pipeclose_moves
  | inode => exact fsCall_moves.bind fun _ => .ret rfl
  | device => exact fsCall_moves.bind fun _ => .ret rfl

/-! ## Pipes -/

theorem pipealloc_moves : Moves K (.proc p) [] pipealloc fun _ => [] := by
  refine filealloc_moves.bind fun f0 => ?_
  cases f0 with
  | none => exact .ret rfl
  | some f0 =>
  refine filealloc_moves.bind fun f1 => ?_
  cases f1 with
  | none => exact fileclose_moves.bind fun _ => .ret rfl
  | some f1 =>
  refine vm_moves.bind fun pi => ?_
  cases pi with
  | none => exact fileclose_moves.bind fun _ => fileclose_moves.bind fun _ => .ret rfl
  | some pi =>
    exact modPipe_moves.bind fun _ => modFile_moves.bind fun _ => modFile_moves.bind fun _ =>
      .ret rfl

/-- The locks that `pipewrite` holds when it has left the loop. -/
private def pipewriteLocks (pi : PipeId) : Option Nat → List Lock
  | none => []
  | some _ => [.pipe pi]

theorem pipewrite_moves {pi : PipeId} {addr : U64} {n : I32} :
    Moves K (.proc p) [] (pipewrite pi addr n) fun _ => [] := by
  have hl := Lock.plain_pipe pi
  refine myproc_moves fun p' hp' => ?_
  obtain rfl : p = p' := Tid.proc.inj hp'
  refine (acquire_moves hl).bind fun _ => ?_
  refine Moves.bind (R := pipewriteLocks pi) (Moves.loop fun i => ?_) fun r => ?_
  · refine .ite (.ret rfl) (read_moves.bind fun _ => .ite ?_ ?_)
    · exact (release_moves hl).bind fun _ => .ret rfl
    refine (killed_moves hl.noProc).bind fun _ => .ite ?_ ?_
    · exact (release_moves hl).bind fun _ => .ret rfl
    refine read_moves.bind fun x => .ite ?_ ?_
    · refine (wakeup_moves hl.noProc).bind fun _ => ?_
      exact (sleep_moves hl rfl).bind fun _ => .ret rfl
    refine read_moves.bind fun _ => deref_moves.bind fun _ => vm_moves.bind fun r => ?_
    split
    · exact modPipe_moves.bind fun _ => .ret rfl
    · exact .ret rfl
  · cases r with
    | none => exact .ret rfl
    | some i =>
      exact (wakeup_moves hl.noProc).bind fun _ => (release_moves hl).bind fun _ => .ret rfl

/-- The locks that `piperead` holds when it has left the first loop. -/
private def pipereadLocks (pi : PipeId) : Bool → List Lock
  | false => []
  | true => [.pipe pi]

theorem piperead_moves {pi : PipeId} {addr : U64} {n : I32} :
    Moves K (.proc p) [] (piperead pi addr n) fun _ => [] := by
  have hl := Lock.plain_pipe pi
  refine myproc_moves fun p' hp' => ?_
  obtain rfl : p = p' := Tid.proc.inj hp'
  refine (acquire_moves hl).bind fun _ => ?_
  refine Moves.bind (R := pipereadLocks pi) (Moves.loop fun _ => ?_) fun ready => ?_
  · refine read_moves.bind fun x => .ite (.ret rfl) ?_
    refine (killed_moves hl.noProc).bind fun _ => .ite ?_ ?_
    · exact (release_moves hl).bind fun _ => .ret rfl
    · exact (sleep_moves hl rfl).bind fun _ => .ret rfl
  · cases ready with
    | false => exact .ret rfl
    | true =>
      refine Moves.bind (R := fun _ => [.pipe pi]) (Moves.loop fun i => ?_) fun i => ?_
      · refine .ite (.ret rfl) (read_moves.bind fun x => .ite (.ret rfl) ?_)
        refine modPipe_moves.bind fun _ => copyoutTo_moves.bind fun r => ?_
        cases r <;> exact .ret rfl
      · exact (wakeup_moves hl.noProc).bind fun _ => (release_moves hl).bind fun _ => .ret rfl

/-! ## The console -/

/-- The locks that `consoleread` holds when it has left the loop. -/
private def consolereadLocks : Option I32 → List Lock
  | none => []
  | some _ => [.cons]

theorem consoleread_moves {dst : U64} {n : I32} :
    Moves K (.proc p) [] (consoleread dst n) fun _ => [] := by
  have hl := Lock.plain_cons
  have hdata : ∀ f, Moves K (.proc p) [.cons] (write (.data f)) fun _ => [.cons] :=
    fun f => write_moves trivial
  refine myproc_moves fun p' hp' => ?_
  obtain rfl : p = p' := Tid.proc.inj hp'
  refine (acquire_moves hl).bind fun _ => ?_
  refine Moves.bind (R := consolereadLocks) (Moves.loop fun ⟨dst, m⟩ => ?_) fun r => ?_
  · refine .ite (.ret rfl) (read_moves.bind fun x => .ite ?_ ?_)
    · refine (killed_moves hl.noProc).bind fun _ => .ite ?_ ?_
      · exact (release_moves hl).bind fun _ => .ret rfl
      · exact (sleep_moves hl rfl).bind fun _ => .ret rfl
    · refine (hdata _).bind fun _ => .ite ?_ ?_
      · exact .ite ((hdata _).bind fun _ => .ret rfl) (.ret rfl)
      · refine copyoutTo_moves.bind fun r => ?_
        cases r with
        | none => exact .ret rfl
        | some _ => exact .ite (.ret rfl) (.ret rfl)
  · cases r with
    | none => exact .ret rfl
    | some m => exact (release_moves hl).bind fun _ => .ret rfl

/-! ## Reading and writing files -/

theorem fileread_moves {f : FileId} {addr : U64} {n : I32} :
    Moves K (.proc p) [] (fileread f addr n) fun _ => [] := by
  refine read_moves.bind fun x => .ite (.ret rfl) ?_
  cases x.type with
  | none => exact panic_moves
  | pipe pi => exact piperead_moves
  | inode => exact fsCall_moves
  | device => exact consoleread_moves

theorem filewrite_moves {f : FileId} {addr : U64} {n : I32} :
    Moves K (.proc p) [] (filewrite f addr n) fun _ => [] := by
  refine read_moves.bind fun x => .ite (.ret rfl) ?_
  cases x.type with
  | none => exact panic_moves
  | pipe pi => exact pipewrite_moves
  | inode => exact fsCall_moves
  | device => exact fsCall_moves

end Xv6
