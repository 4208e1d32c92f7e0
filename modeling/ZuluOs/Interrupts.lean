/-
Printing and interrupts: `interrupts.rs`, `sys::without_interrupts`, `print`
and `print_bytes` of `vga_buffer.rs` and `_print` of `serial.rs`.

Kernel code and the handlers of the timer, of the keyboard and of the
exceptions share three spin locks: `WRITER`, `SERIAL1` and `PICS`.  The code of
each function is a list of operations of `Preemption`; the kernel runs any
sequence of calls, and interrupts come in wherever the flag is set and the
interrupt controllers let them through.  The controllers are a parameter
(`Controllers`): what the `pic8259` crate and the chips do is not in this
repository.

* `prints_serialize` — the screen shows whole texts, one after another, those
  of the kernel in the order of its code and every one once;
* `locks_never_block` — no lock is ever found taken, and every call that was
  begun is completed, unless the kernel or a handler above it halts for good;
* `interrupts_restored` — a call leaves the interrupt flag as it was;
* `exception_prints_iff` — if the memory that its handler reads first can be
  read, the message of an exception is printed iff nothing was being printed
  when it occurred.
-/
import ZuluOs.CriticalSections
import ZuluOs.VgaTerminal

namespace VgaBuffer

/-- `write_byte`, which succeeds. -/
def Writer.put (w : Writer) (byte : UInt8) : Writer :=
  match h : (w.writeByte byte : Outcome Empty Writer) with
  | .ok w' => w'
  | .err e => e.elim
  | .stop _ => absurd h (by obtain ⟨w', hw'⟩ := w.writeByte_ok (ε := Empty) byte; simp [hw'])

theorem Writer.writeByte_eq (w : Writer) (byte : UInt8) :
    (w.writeByte byte : Outcome Empty Writer) = .ok (w.put byte) := by
  obtain ⟨w', hw'⟩ := w.writeByte_ok (ε := Empty) byte
  rw [hw', Writer.put]
  split
  case h_1 w'' hw'' => rw [← hw', hw'']
  case h_2 e he => exact e.elim
  case h_3 s hs =>
    rw [hw'] at hs
    cases hs

theorem Writer.writeBytes_eq (w : Writer) (bytes : List UInt8) :
    (w.writeBytes bytes : Outcome Empty Writer) = .ok (bytes.foldl Writer.put w) := by
  induction bytes generalizing w with
  | nil => rfl
  | cons byte bytes ih =>
    show (w.writeByte byte >>= fun w => w.writeBytes bytes) = _
    rw [w.writeByte_eq, Outcome.ok_bind, ih]
    rfl

end VgaBuffer

namespace Interrupts

open Preemption VgaBuffer Transition

/-! ### The interrupt controllers -/

def PIC_1_OFFSET : UInt8 := 32

/-- `InterruptIndex` -/
inductive InterruptIndex where
  | timer
  | keyboard
deriving DecidableEq, Repr

/-- `InterruptIndex::as_u8` -/
def InterruptIndex.asU8 : InterruptIndex → UInt8
  | .timer => PIC_1_OFFSET
  | .keyboard => PIC_1_OFFSET + 1

/-- The controllers behind `PICS`, with their states `P`. -/
structure Controllers (P : Type) where
  /-- After `ChainedPics::initialize` -/
  idle : P
  /-- A request of the timer or of the keyboard is let through, or not. -/
  deliver : P → InterruptIndex → Option P
  /-- `ChainedPics::notify_end_of_interrupt` -/
  notifyEndOfInterrupt : P → UInt8 → P

/-! ### The code -/

/-- The spin locks of the kernel. -/
inductive Lock where
  | WRITER
  | SERIAL1
  | PICS
deriving DecidableEq, Repr

/-- What is done under them. -/
inductive Effect where
  | writeByte (byte : UInt8)
  | send (byte : UInt8)
  | notifyEndOfInterrupt (index : InterruptIndex)
deriving DecidableEq, Repr

def Effect.guard : Effect → Lock
  | .writeByte _ => .WRITER
  | .send _ => .SERIAL1
  | .notifyEndOfInterrupt _ => .PICS

structure Device (P : Type) where
  writer : Writer
  /-- The bytes handed to the serial port. -/
  serial : List UInt8
  pics : P

variable {P : Type}

def Device.perform (pics : Controllers P) (d : Device P) : Effect → Device P
  | .writeByte byte => { d with writer := d.writer.put byte }
  | .send byte => { d with serial := d.serial ++ [byte] }
  | .notifyEndOfInterrupt index =>
    { d with pics := pics.notifyEndOfInterrupt d.pics index.asU8 }

abbrev Code := List (Op Lock Effect)

/-- `sys::without_interrupts` -/
def withoutInterrupts (f : Code) : Code := masked f

/-- `vga_buffer::print`, of the bytes `write_fmt` hands to `write_string`. -/
def print (text : List UInt8) : Code :=
  withoutInterrupts (critical .WRITER ((text.map displayed).map .writeByte))

/-- `vga_buffer::print_bytes` -/
def printBytes (bytes : List UInt8) : Code :=
  withoutInterrupts (critical .WRITER (bytes.map .writeByte))

/-- `serial::_print` -/
def serialPrint (text : List UInt8) : Code :=
  withoutInterrupts (critical .SERIAL1 (text.map .send))

/-- The panic handler of the kernel, and every other end of the line: a message
is printed, and nothing more. -/
def die (message : List UInt8) : Code := print message ++ [.halt]

/-- `PICS.lock().notify_end_of_interrupt(index.as_u8())` -/
def endInterrupt (index : InterruptIndex) : Code :=
  critical .PICS [.notifyEndOfInterrupt index]

/-- `timer_interrupt_handler` -/
def timerInterruptHandler : Code := endInterrupt .timer

def scancodeWarning : List UInt8 := "WARNING: scancode buf not initialized\n".toUTF8.toList

/-- What `add_scancode` comes to. -/
inductive Scancode where
  /-- `SCANCODE_QUEUE` is not initialized. -/
  | uninitialized
  /-- The scancode is queued, and its task woken if it waits; or it is dropped. -/
  | accepted
  /-- The wake finds the task queue full, and panics. -/
  | taskQueueFull (message : List UInt8)
deriving DecidableEq, Repr

/-- `keyboard_interrupt_handler`; the index is the source's.  A panic of
`add_scancode` leaves the interrupt without an end. -/
def keyboardInterruptHandler : Scancode → Code
  | .uninitialized => print scancodeWarning ++ endInterrupt .timer
  | .accepted => endInterrupt .timer
  | .taskQueueFull message => die message

inductive Interrupt where
  | timer
  | keyboard (scancode : Scancode)
deriving DecidableEq, Repr

def Interrupt.index : Interrupt → InterruptIndex
  | .timer => .timer
  | .keyboard _ => .keyboard

def Interrupt.handler : Interrupt → Code
  | .timer => timerInterruptHandler
  | .keyboard scancode => keyboardInterruptHandler scancode

/-- The exceptions, with the texts their handlers print. -/
inductive Exception where
  /-- `my_write(ptr, len)` with the bytes there, unless `from_raw_parts` panics on
  `ptr` and `len`; and the message of that panic, or of `unwrap` if the bytes are
  not UTF-8. -/
  | breakpoint (bytes : Option (List UInt8)) (message : List UInt8)
  | divideError (message : List UInt8)
  | doubleFault (message : List UInt8)
  | pageFault (message : List UInt8)

/-- `my_write`; it reads the bytes before it prints them. -/
def myWrite (bytes : Option (List UInt8)) (message : List UInt8) : Code :=
  match bytes with
  | none => die message
  | some bytes =>
    .touch :: if ByteArray.validateUTF8 ⟨bytes.toArray⟩ then print bytes else die message

/-- The handlers; `page_fault_handler` reads the word at the stack pointer of the
code that was interrupted. -/
def Exception.handler : Exception → Code
  | .breakpoint bytes message => myWrite bytes message
  | .divideError message => die message
  | .doubleFault message => die message
  | .pageFault message => .touch :: die message

/-- The text an exception prints. -/
def Exception.text : Exception → List UInt8
  | .breakpoint none message => message
  | .breakpoint (some bytes) message =>
    if ByteArray.validateUTF8 ⟨bytes.toArray⟩ then bytes else message
  | .divideError message => message
  | .doubleFault message => message
  | .pageFault message => message

/-- The kernel as an instance. -/
def core (pics : Controllers P) : Core Lock Effect (Device P) Interrupt Exception where
  onInterrupt := Interrupt.handler
  onFault := Exception.handler
  accept i d := (pics.deliver d.pics i.index).map fun p => { d with pics := p }
  perform := Device.perform pics

/-- What the kernel itself does, as far as locks and the flag go. -/
inductive Item where
  | print (text : List UInt8)
  | printBytes (bytes : List UInt8)
  | serialPrint (text : List UInt8)
  | enableInterrupts
  | disableInterrupts
  | hltLoop
deriving DecidableEq, Repr

def Item.code : Item → Code
  | .print text => Interrupts.print text
  | .printBytes bytes => Interrupts.printBytes bytes
  | .serialPrint text => Interrupts.serialPrint text
  | .enableInterrupts => [.setFlag true]
  | .disableInterrupts => [.setFlag false]
  | .hltLoop => [.halt]

/-- The kernel after `init`: interrupts are off, and the controllers idle. -/
def boot (pics : Controllers P) (items : List Item) (w : Writer) :
    State Lock Effect (Device P) :=
  ⟨false, fun _ => false, ⟨w, [], pics.idle⟩, ⟨items.flatMap Item.code, []⟩, []⟩

/-- Controllers that have at most one line in service. -/
def sampleControllers : Controllers (Option InterruptIndex) where
  idle := none
  deliver p i := if p = none then some (some i) else none
  notifyEndOfInterrupt _ _ := none

/-- Interrupts are enabled, the timer comes in, and a letter is printed. -/
def sampleItems : List Item := [.enableInterrupts, .print [0x41]]

def sampleRun : List (Action Interrupt Exception) :=
  [.run, .interrupt .timer] ++ List.replicate 10 .run

/-! ### The code keeps to the discipline -/

variable {sti f : Bool} {saved : List Bool} {code : Code}

theorem print_disciplined (text : List UInt8)
    (h : Disciplined Effect.guard sti f none saved code) :
    Disciplined Effect.guard sti f none saved (print text ++ code) :=
  h.masked (List.forall_mem_map.mpr fun _ _ => rfl)

theorem endInterrupt_disciplined (index : InterruptIndex)
    (h : Disciplined Effect.guard sti false none saved code) :
    Disciplined Effect.guard sti false none saved (endInterrupt index ++ code) :=
  h.critical (by simp [Effect.guard])

theorem die_disciplined (message : List UInt8) :
    Disciplined Effect.guard sti f none saved (die message) :=
  print_disciplined message .halt

/-- A handler of an exception reads, prints its text, and returns or halts. -/
theorem Exception.handler_eq (x : Exception) : ∃ (n : ℕ) (rest : Code),
    x.handler = List.replicate n .touch ++ (print x.text ++ rest) ∧
      (rest = [] ∨ rest = [.halt]) := by
  cases x with
  | breakpoint bytes message =>
    cases bytes with
    | none => exact ⟨0, [.halt], rfl, .inr rfl⟩
    | some bytes =>
      rw [Exception.handler, myWrite, Exception.text]
      split
      · exact ⟨1, [], congrArg (List.cons Op.touch) (List.append_nil _).symm, .inl rfl⟩
      · exact ⟨1, [.halt], rfl, .inr rfl⟩
  | pageFault message => exact ⟨1, [.halt], rfl, .inr rfl⟩
  | divideError message | doubleFault message => exact ⟨0, [.halt], rfl, .inr rfl⟩

theorem core_disciplined (pics : Controllers P) : (core pics).Disciplined Effect.guard where
  onInterrupt i := by
    have hend : Disciplined Effect.guard false false none [] (endInterrupt .timer) :=
      endInterrupt_disciplined .timer .done
    cases i with
    | timer => exact hend
    | keyboard scancode =>
      cases scancode with
      | uninitialized => exact print_disciplined scancodeWarning hend
      | accepted => exact hend
      | taskQueueFull message => exact die_disciplined message
  onFault x := by
    obtain ⟨n, rest, hhandler, hrest⟩ := x.handler_eq
    show Disciplined Effect.guard false false none [] x.handler
    rw [hhandler]
    refine .touches n (print_disciplined x.text ?_)
    rcases hrest with rfl | rfl
    · exact .done
    · exact .halt

theorem items_disciplined (items : List Item) (f : Bool) :
    Disciplined Effect.guard true f none [] (items.flatMap Item.code) := by
  induction items generalizing f with
  | nil => exact .done
  | cons item items ih =>
    rw [List.flatMap_cons]
    cases item with
    | print text => exact print_disciplined text (ih f)
    | printBytes bytes => exact (ih f).masked (List.forall_mem_map.mpr fun _ _ => rfl)
    | serialPrint text => exact (ih f).masked (List.forall_mem_map.mpr fun _ _ => rfl)
    | enableInterrupts => exact .setFlag rfl (ih true)
    | disableInterrupts => exact .setFlag rfl (ih false)
    | hltLoop => exact .halt

variable {pics : Controllers P}

theorem boot_safe (items : List Item) (w : Writer) : Safe Effect.guard (boot pics items w) :=
  ⟨none, by simp [boot], .first (items_disciplined items false)⟩

theorem sampleRun_calm : Along (core sampleControllers).step Calm
    (boot sampleControllers sampleItems default) sampleRun :=
  calm_of_no_fault (by simp [sampleRun]) _

variable {as : List (Action Interrupt Exception)} {s t : State Lock Effect (Device P)}

/-- **No deadlock.**  Wherever interrupts come in, and exceptions while no lock
is held, no context finds a lock taken; and left to itself the processor comes to
rest within as many steps as there are operations left, with all locks free: what
was begun is completed then, or the context that was running has halted for good,
as after a panic. -/
theorem locks_never_block (items : List Item) (w : Writer)
    (hcalm : Along (core pics).step Calm (boot pics items w) as)
    (h : exec (core pics).step (boot pics items w) as = some s) :
    ¬ Blocked s ∧ ∃ n ≤ s.size, ∃ t, exec (core pics).step s (List.replicate n .run) = some t ∧
      Resting t ∧ ∀ l, t.held l = false := by
  have hs := exec_safe (core_disciplined pics) hcalm (boot_safe items w) h
  obtain ⟨n, hn, t, hrun, hrest, ht⟩ := hs.rests (core_disciplined pics)
  exact ⟨hs.not_blocked, n, hn, t, hrun, hrest, ht.free hrest⟩

theorem locks_never_block_timer :
    ∃ s, exec (core sampleControllers).step (boot sampleControllers sampleItems default) sampleRun
      = some s ∧ ¬ Blocked s :=
  ⟨_, rfl, (locks_never_block sampleItems default sampleRun_calm rfl).1⟩

/-! ### The screen -/

/-- The byte an effect puts on the screen. -/
def Effect.shown : Effect → Option UInt8
  | .writeByte byte => some byte
  | _ => none

/-- The text a critical section puts on the screen. -/
def textOf : Lock × List Effect → Option (List UInt8)
  | (.WRITER, es) => some (es.filterMap Effect.shown)
  | _ => none

/-- The texts that code prints. -/
def texts (code : Code) : List (List UInt8) := (sections code).filterMap textOf

/-- What is left of the text that is being printed. -/
def pending (s : State Lock Effect (Device P)) : List UInt8 :=
  (acts s.running.code).filterMap Effect.shown

/-- The texts that are still to be printed, by all contexts. -/
def textsLeft (s : State Lock Effect (Device P)) : List (List UInt8) :=
  s.remaining.filterMap textOf

/-- The bytes a call of the kernel writes to the screen. -/
def Item.text : Item → Option (List UInt8)
  | .print text => some (text.map displayed)
  | .printBytes bytes => some bytes
  | _ => none

theorem shown_writeBytes (bytes : List UInt8) :
    (bytes.map .writeByte).filterMap Effect.shown = bytes := by
  rw [List.filterMap_map]
  exact List.filterMap_some

theorem textOf_writer (bytes : List UInt8) :
    textOf (.WRITER, bytes.map .writeByte) = some bytes :=
  congrArg some (shown_writeBytes bytes)

theorem texts_items (items : List Item) :
    texts (items.flatMap Item.code) = items.filterMap Item.text := by
  induction items with
  | nil => rfl
  | cons item items ih =>
    have hprint : ∀ bytes : List UInt8, texts
        (masked (critical .WRITER (bytes.map .writeByte)) ++ items.flatMap Item.code)
          = bytes :: items.filterMap Item.text := by
      intro bytes
      rw [texts, sections_masked, List.filterMap_cons_some (textOf_writer bytes)]
      exact congrArg _ ih
    rw [List.flatMap_cons]
    cases item with
    | print text => exact hprint _
    | printBytes bytes => exact hprint bytes
    | serialPrint text =>
      show texts (masked (critical .SERIAL1 _) ++ _) = _
      rw [texts, sections_masked]
      exact ih
    | _ => exact ih

/-- An effect, as far as the screen is concerned. -/
def onScreen (w : Writer) : Effect → Writer
  | .writeByte byte => w.put byte
  | _ => w

theorem foldl_onScreen (es : List Effect) (w : Writer) :
    es.foldl onScreen w = (es.filterMap Effect.shown).foldl Writer.put w := by
  induction es generalizing w with
  | nil => rfl
  | cons e es ih => cases e <;> exact ih _

theorem writer_perform (pics : Controllers P) (d : Device P) (e : Effect) :
    (d.perform pics e).writer = onScreen d.writer e := by
  cases e <;> rfl

theorem writer_foldl (es : List Effect) (d : Device P) :
    (es.foldl (core pics).perform d).writer = es.foldl onScreen d.writer := by
  induction es generalizing d with
  | nil => rfl
  | cons e es ih => rw [List.foldl_cons, List.foldl_cons, ih, ← writer_perform pics]; rfl

theorem writer_accept (i : Interrupt) (d d' : Device P) (h : (core pics).accept i d = some d') :
    d'.writer = d.writer := by
  obtain ⟨_, -, rfl⟩ := Option.map_eq_some_iff.mp h
  rfl

/-- Critical sections in sequence, as far as the screen shows them. -/
def shownOrder (order : List (Bool × Lock × List Effect)) : List (Bool × List UInt8) :=
  order.filterMap fun x => (textOf x.2).map fun text => (x.1, text)

theorem shownOrder_map (order : List (Bool × Lock × List Effect)) :
    (shownOrder order).map (·.2) = (order.map (·.2)).filterMap textOf := by
  rw [shownOrder, List.map_filterMap, List.filterMap_map]
  simp [Function.comp_def]

theorem shownOrder_filter (order : List (Bool × Lock × List Effect)) :
    (shownOrder order).filter (·.1) = shownOrder (order.filter (·.1)) := by
  induction order with
  | nil => rfl
  | cons x order ih =>
    obtain ⟨first, l, es⟩ := x
    cases first <;> cases l <;> simpa [shownOrder, textOf] using ih

/-- What another lock guards is not shown. -/
theorem not_shown {l : Lock} (hl : l ≠ .WRITER) {es : List Effect}
    (hes : ∀ e ∈ es, e.guard = l) : es.filterMap Effect.shown = [] := by
  rw [List.filterMap_eq_nil_iff]
  intro e he
  cases e with
  | writeByte byte => exact absurd (hes _ he).symm hl
  | _ => rfl

theorem foldl_shownOrder {order : List (Bool × Lock × List Effect)}
    (hguard : ∀ x ∈ order, ∀ e ∈ x.2.2, e.guard = x.2.1) (w : Writer) :
    order.foldl (fun w x => x.2.2.foldl onScreen w) w
      = ((shownOrder order).flatMap (·.2)).foldl Writer.put w := by
  induction order generalizing w with
  | nil => rfl
  | cons x order ih =>
    obtain ⟨first, l, es⟩ := x
    obtain ⟨hes, hguard⟩ := List.forall_mem_cons.mp hguard
    rw [List.foldl_cons, foldl_onScreen, ih hguard]
    by_cases hl : l = .WRITER
    · subst hl
      exact List.foldl_append.symm
    · have hskip : shownOrder ((first, l, es) :: order) = shownOrder order := by
        cases l with
        | WRITER => exact absurd rfl hl
        | _ => rfl
      rw [hskip, not_shown hl hes]
      rfl

/-- Nothing is left of a text whose lock is not held. -/
theorem pending_eq_nil (hs : Safe Effect.guard s) (hfree : s.held .WRITER = false) :
    pending s = [] := by
  obtain ⟨lock, hheld, hstack⟩ := hs
  obtain ⟨sti, hcode⟩ := hstack.disciplined
  cases lock with
  | none => rw [pending, hcode.acts_eq_nil, List.filterMap_nil]
  | some l =>
    refine not_shown ?_ hcode.acts_guards
    rintro rfl
    rw [(hheld .WRITER).mpr rfl] at hfree
    cases hfree

/-- **Prints are whole and in order.**  After every run the screen, once the
print under way is through, is as if whole texts had been written one after
another: those of the kernel in the order of its code, and altogether each text
of the kernel and of the handlers that came in exactly once, but for those still
to be printed.  While nobody prints, the screen shows just that. -/
theorem prints_serialize (items : List Item) (w : Writer)
    (hcalm : Along (core pics).step Calm (boot pics items w) as)
    (h : exec (core pics).step (boot pics items w) as = some s) :
    ∃ order : List (Bool × List UInt8),
      (s.device.writer.writeBytes (pending s) : Outcome Empty Writer)
        = w.writeBytes (order.flatMap (·.2)) ∧
      (order.filter (·.1)).map (·.2) <+: items.filterMap Item.text ∧
      (order.map (·.2) ++ textsLeft s).Perm
        (items.filterMap Item.text ++ as.flatMap fun a => texts ((core pics).arrives a)) ∧
      (s.held .WRITER = false →
        (s.device.writer.rows, s.device.writer.columnPosition)
          = w.terminal (order.flatMap (·.2))) := by
  have hs := exec_safe (core_disciplined pics) hcalm (boot_safe items w) h
  obtain ⟨order, hserial⟩ : ∃ order,
      Serial Effect.guard Device.writer onScreen (core pics) (boot pics items w) as s order :=
    exec_serial (core_disciplined pics) (writer_perform pics) writer_accept hcalm
      (boot_safe items w) h
  have hquiet : (boot pics items w).finish Device.writer onScreen
      = (boot pics items w).device.writer :=
    (boot_safe items w).finish_eq fun _ => rfl
  have hview := hserial.view
  rw [hquiet, State.finish, foldl_onScreen, foldl_shownOrder hserial.guarded] at hview
  have hbytes : (s.device.writer.writeBytes (pending s) : Outcome Empty Writer)
      = w.writeBytes ((shownOrder order).flatMap (·.2)) := by
    rw [Writer.writeBytes_eq, Writer.writeBytes_eq]
    exact congrArg Outcome.ok hview
  refine ⟨shownOrder order, hbytes, ?_, ?_, ?_⟩
  · rw [shownOrder_filter, shownOrder_map, ← texts_items]
    refine List.IsPrefix.filterMap textOf ?_
    exact ⟨_, hserial.program.symm⟩
  · have hboot : (boot pics items w).remaining = sections (items.flatMap Item.code) :=
      List.append_nil _
    have hall := hserial.all.filterMap textOf
    rw [hboot, List.filterMap_append, List.filterMap_append, List.filterMap_flatMap] at hall
    rw [shownOrder_map, ← texts_items]
    exact hall
  · intro hfree
    obtain ⟨w', hw', hshow⟩ := w.writeBytes_terminal (ε := Empty) ((shownOrder order).flatMap (·.2))
    rw [pending_eq_nil hs hfree, hw'] at hbytes
    rw [← hshow, ← Outcome.ok.inj hbytes]

theorem prints_serialize_timer :
    ∃ (s : State Lock Effect (Device (Option InterruptIndex))) (order : List (Bool × List UInt8)),
      exec (core sampleControllers).step (boot sampleControllers sampleItems default) sampleRun
        = some s ∧
      (order.filter (·.1)).map (·.2) <+: [[0x41]] ∧
      (s.device.writer.rows, s.device.writer.columnPosition)
        = (default : Writer).terminal (order.flatMap (·.2)) := by
  obtain ⟨order, -, hprogram, -, hshow⟩ :=
    prints_serialize sampleItems default sampleRun_calm rfl
  exact ⟨_, order, rfl, hprogram, hshow rfl⟩

/-! ### The interrupt flag -/

/-- The flag as a call of the kernel leaves it. -/
def Item.flag (f : Bool) : Item → Bool
  | .enableInterrupts => true
  | .disableInterrupts => false
  | _ => f

theorem foldl_setTo_masked (l : Lock) (es : List Effect) (f : Bool) :
    (masked (critical l es)).foldl setTo f = f := by
  have hacts : (es.map Op.act : Code).foldl setTo f = f := by
    rw [List.foldl_map]
    exact List.foldl_fixed es
  simp [masked, critical, setTo, hacts]

theorem foldl_setTo_items (items : List Item) (f : Bool) :
    (items.flatMap Item.code).foldl setTo f = items.foldl Item.flag f := by
  induction items generalizing f with
  | nil => rfl
  | cons item items ih =>
    have hitem : item.code.foldl setTo f = item.flag f := by
      cases item with
      | print text => exact foldl_setTo_masked _ _ f
      | printBytes bytes => exact foldl_setTo_masked _ _ f
      | serialPrint text => exact foldl_setTo_masked _ _ f
      | _ => rfl
    rw [List.flatMap_cons, List.foldl_append, hitem, List.foldl_cons, ih]

/-- **The interrupt flag is put back.**  When the kernel is between two of its
calls, it runs, or will be resumed, with interrupts as it last set them itself,
whatever it printed since and whatever interrupted it. -/
theorem interrupts_restored (done rest : List Item) (w : Writer)
    (hcalm : Along (core pics).step Calm (boot pics (done ++ rest) w) as)
    (h : exec (core pics).step (boot pics (done ++ rest) w) as = some s)
    (hcode : s.first.2.code = rest.flatMap Item.code) (hsaved : s.first.2.saved = []) :
    s.first.1 = done.foldl Item.flag false := by
  obtain ⟨ops, hops, hflag⟩ :=
    exec_flag (core_disciplined pics) hcalm (boot_safe (done ++ rest) w) h
  have hdone : (done ++ rest).flatMap Item.code = ops ++ rest.flatMap Item.code := hcode ▸ hops
  rw [List.flatMap_append, List.append_cancel_right_eq] at hdone
  have hsettled : settled s.first = s.first.1 := by
    rw [settled, hsaved]
    exact Bool.or_false _
  rw [← hsettled, hflag, ← hdone]
  exact foldl_setTo_items done false

theorem interrupts_restored_timer :
    ∃ s, exec (core sampleControllers).step (boot sampleControllers sampleItems default) sampleRun
      = some s ∧ s.first.1 = true :=
  ⟨_, rfl, interrupts_restored sampleItems [] default sampleRun_calm rfl rfl rfl⟩

/-! ### Exceptions -/

theorem Exception.wants (x : Exception) : Wants .WRITER x.handler := by
  obtain ⟨n, rest, hhandler, -⟩ := x.handler_eq
  exact ⟨n, _, hhandler⟩

/-- **Exceptions while printing hang.**  From every state, the handler of an
exception can get past its print iff the screen was not being written to when the
exception occurred.  Then it does, and its text is shown, unless the memory that it
reads before that raises another exception; and otherwise nothing is ever shown
again, whatever other exceptions there are. -/
theorem exception_prints_iff (s : State Lock Effect (Device P)) (x : Exception) :
    ((∃ as u, exec (core pics).step ((core pics).raise s x) as = some u ∧
        u.below = ((core pics).raise s x).below ∧ sections u.running.code = []) ↔
      s.held .WRITER = false) ∧
    (s.held .WRITER = false → ∃ n u,
      exec (core pics).step ((core pics).raise s x) (List.replicate n .run) = some u ∧
        u.below = ((core pics).raise s x).below ∧ sections u.running.code = [] ∧
        s.device.writer.writeString x.text = (.ok u.device.writer : Outcome Empty Writer)) ∧
    (s.held .WRITER = true → ∀ as u,
      exec (core pics).step ((core pics).raise s x) as = some u → u.device = s.device) := by
  obtain ⟨k, rest, hhandler, hreturns⟩ := x.handler_eq
  have hrest : sections rest = [] := by
    rcases hreturns with rfl | rfl <;> rfl
  -- with the screen free the handler reads, and the print goes through
  have hruns : s.held .WRITER = false → ∃ n u,
      exec (core pics).step ((core pics).raise s x) (List.replicate n .run) = some u ∧
        u.below = ((core pics).raise s x).below ∧ sections u.running.code = [] ∧
        s.device.writer.writeString x.text = (.ok u.device.writer : Outcome Empty Writer) := by
    intro hfree
    have hreads := exec_touches (core pics) (s := (core pics).raise s x) k hhandler
    have hprint := exec_masked (core pics)
      (s := { (core pics).raise s x with running := ⟨print x.text ++ rest, []⟩ }) rfl hfree
    have hrun := exec_append_eq_some.mpr ⟨_, hreads, hprint⟩
    rw [← List.replicate_add] at hrun
    refine ⟨_, _, hrun, rfl, hrest, ?_⟩
    rw [Writer.writeString, Writer.writeBytes_eq, writer_foldl, foldl_onScreen, shown_writeBytes]
    rfl
  -- with the screen taken it spins, and so does every other handler
  have hdoomed : s.held .WRITER = true → Doomed .WRITER ((core pics).raise s x) :=
    fun htaken => ⟨rfl, htaken, .inl x.wants⟩
  refine ⟨⟨?_, ?_⟩, hruns, ?_⟩
  · rintro ⟨as, u, hrun, -, hsections⟩
    rw [← Bool.not_eq_true]
    intro htaken
    exact ((hdoomed htaken).exec Exception.wants hrun).1.sections_ne_nil hsections
  · intro hfree
    obtain ⟨n, u, hrun, hbelow, hsections, -⟩ := hruns hfree
    exact ⟨_, u, hrun, hbelow, hsections⟩
  · intro htaken as u hrun
    exact ((hdoomed htaken).exec Exception.wants hrun).2

end Interrupts
