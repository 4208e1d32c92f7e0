/-
Acknowledged interrupts: what the handlers of `interrupts.rs` do to the
interrupt controllers.

The controllers are not part of the repository.  What is asked of them
(`Controllers.Lawful`) is that they let both interrupts through when none is in
service, and that with one in service the command that ends an interrupt is for
that one, whichever index is named.  So what counts is that one is sent for every
interrupt that was let through, and before the next.

* `Acknowledged.step` — an interrupt is in service iff there is an
  acknowledgement to come, or a handler has panicked before its own;
* `interrupts_acknowledged` — no interrupt is shut out for want of one,
  although the keyboard handler acknowledges the timer; and after such a panic
  none comes in at all.
-/
import ZuluOs.Interrupts

namespace Interrupts

open Preemption VgaBuffer Transition

variable {P : Type} {pics : Controllers P} {code : Code} {items : List Item} {w : Writer}
variable {as : List (Action Interrupt Exception)} {s t : State Lock Effect (Device P)}

structure Controllers.Lawful (pics : Controllers P) : Prop where
  deliver_idle : ∀ i, ∃ p, pics.deliver pics.idle i = some p
  end_of_one : ∀ i p, pics.deliver pics.idle i = some p → ∀ index : InterruptIndex,
    pics.notifyEndOfInterrupt p index.asU8 = pics.idle

theorem sampleControllers_lawful : sampleControllers.Lawful where
  deliver_idle i := ⟨some i, rfl⟩
  end_of_one _ _ _ _ := rfl

def isAcknowledgement : Op Lock Effect → Bool
  | .act (.notifyEndOfInterrupt _) => true
  | _ => false

/-- The acknowledgements left in code. -/
def acknowledgements (code : Code) : ℕ := code.countP isAcknowledgement

/-- The acknowledgements the contexts still have to send. -/
def outstanding (s : State Lock Effect (Device P)) : ℕ :=
  acknowledgements s.running.code + (s.below.map fun k => acknowledgements k.2.code).sum

theorem acknowledgements_masked {l : Lock} {es : List Effect} (hl : l ≠ .PICS)
    (hes : ∀ e ∈ es, e.guard = l) : acknowledgements (masked (critical l es)) = 0 := by
  have hacts : acknowledgements (es.map .act) = 0 := by
    rw [acknowledgements, List.countP_map, List.countP_eq_zero]
    intro e he
    cases e with
    | notifyEndOfInterrupt index => exact absurd (hes _ he).symm hl
    | _ => simp [isAcknowledgement]
  rw [acknowledgements] at hacts
  simp [acknowledgements, masked, critical, isAcknowledgement, hacts]

theorem acknowledgements_print (text : List UInt8) : acknowledgements (print text) = 0 :=
  acknowledgements_masked (by simp) (List.forall_mem_map.mpr fun _ _ => rfl)

theorem acknowledgements_items (items : List Item) :
    acknowledgements (items.flatMap Item.code) = 0 := by
  induction items with
  | nil => rfl
  | cons item items ih =>
    have hitem : acknowledgements item.code = 0 := by
      cases item with
      | print text => exact acknowledgements_print text
      | printBytes bytes =>
        exact acknowledgements_masked (by simp) (List.forall_mem_map.mpr fun _ _ => rfl)
      | serialPrint text =>
        exact acknowledgements_masked (by simp) (List.forall_mem_map.mpr fun _ _ => rfl)
      | _ => rfl
    rw [acknowledgements] at hitem ih ⊢
    rw [List.flatMap_cons, List.countP_append, hitem, ih]

theorem acknowledgements_die (message : List UInt8) : acknowledgements (die message) = 0 := by
  have hprint := acknowledgements_print message
  rw [acknowledgements] at hprint
  rw [die, acknowledgements, List.countP_append, hprint]
  rfl

/-- A handler acknowledges its interrupt once, or halts. -/
theorem acknowledgements_interrupt (i : Interrupt) :
    acknowledgements i.handler = 1 ∨ acknowledgements i.handler = 0 ∧ .halt ∈ i.handler := by
  cases i with
  | timer => exact .inl rfl
  | keyboard scancode =>
    cases scancode with
    | accepted => exact .inl rfl
    | taskQueueFull message =>
      exact .inr ⟨acknowledgements_die message, List.mem_append_right _ List.mem_cons_self⟩
    | uninitialized =>
      left
      have hprint := acknowledgements_print scancodeWarning
      rw [acknowledgements] at hprint
      show List.countP isAcknowledgement (print scancodeWarning ++ endInterrupt .timer) = 1
      rw [List.countP_append, hprint]
      rfl

theorem acknowledgements_exception (x : Exception) : acknowledgements x.handler = 0 := by
  obtain ⟨n, rest, hhandler, hrest⟩ := x.handler_eq
  have hprint := acknowledgements_print x.text
  rw [acknowledgements] at hprint
  rw [acknowledgements, hhandler, List.countP_append, List.countP_append, hprint,
    List.countP_replicate]
  rcases hrest with rfl | rfl <;> rfl

/-- An interrupt is in service: there is an acknowledgement to come, or a handler
will halt without one. -/
def InService (pics : Controllers P) (s : State Lock Effect (Device P)) : Prop :=
  (∃ i, pics.deliver pics.idle i = some s.device.pics) ∧
    (outstanding s = 1 ∨ outstanding s = 0 ∧ HaltsAbove s.running s.below)

/-- None is in service and none is to be acknowledged, or one is; the kernel
itself acknowledges nothing. -/
structure Acknowledged (pics : Controllers P) (s : State Lock Effect (Device P)) : Prop where
  service : s.device.pics = pics.idle ∧ outstanding s = 0 ∨ InService pics s
  first : acknowledgements s.first.2.code = 0

/-- Outside of handlers there is nothing to acknowledge. -/
theorem Acknowledged.idle (hI : Acknowledged pics s) (hnil : s.below = []) :
    s.device.pics = pics.idle ∧ outstanding s = 0 := by
  refine hI.service.resolve_right ?_
  rintro ⟨-, hone | ⟨-, hhalts⟩⟩
  · have hfirst := hI.first
    rw [State.first_of_nil hnil] at hfirst
    rw [outstanding, hnil, hfirst] at hone
    cases hone
  · rw [hnil] at hhalts
    exact hhalts

/-- A step that neither the controllers nor the acknowledgements to come notice. -/
theorem Acknowledged.service_of_eq {a : Action Interrupt Exception} (hI : Acknowledged pics s)
    (h : (core pics).step s a = some t) (hpics : t.device.pics = s.device.pics)
    (hcount : outstanding t = outstanding s) :
    t.device.pics = pics.idle ∧ outstanding t = 0 ∨ InService pics t := by
  rw [InService, hpics, hcount]
  refine hI.service.imp_right fun hservice => ⟨hservice.1, hservice.2.imp_right ?_⟩
  rintro ⟨hzero, hhalts⟩
  exact ⟨hzero, hhalts.step h⟩

/-- Only an acknowledgement is seen by the controllers. -/
theorem op_pics {o : Op Lock Effect} {k : Context Lock Effect} (ho : (core pics).op s k o = some t)
    (hother : isAcknowledgement o = false) : t.device.pics = s.device.pics := by
  cases o with
  | act e =>
    obtain rfl := Option.some.inj ho
    cases e with
    | notifyEndOfInterrupt index => cases hother
    | writeByte | send => rfl
  | acquire l =>
    rw [Core.op] at ho
    split at ho <;> obtain rfl := Option.some.inj ho <;> rfl
  | halt => cases ho
  | _ =>
    obtain rfl := Option.some.inj ho
    rfl

theorem Acknowledged.op (hlaw : pics.Lawful) {o : Op Lock Effect} (hI : Acknowledged pics s)
    (hs : Safe Effect.guard s) (hcode : s.running.code = o :: code)
    (ho : (core pics).op s ⟨code, s.running.saved⟩ o = some t) : Acknowledged pics t := by
  obtain ⟨hgoes, hbelow⟩ := hs.op_goes hcode ho
  have hstep : (core pics).step s .run = some t := by
    rw [Core.step, hcode]
    exact ho
  have hcount : outstanding s = outstanding t + if isAcknowledgement o then 1 else 0 := by
    rw [outstanding, outstanding, hcode, hgoes, hbelow, acknowledgements, acknowledgements,
      List.countP_cons]
    omega
  have hfirst : acknowledgements t.first.2.code = 0 := by
    have hzero := hI.first
    by_cases hnil : s.below = []
    · rw [State.first_of_nil hnil, hcode, acknowledgements, List.countP_cons] at hzero
      rw [State.first_of_nil (hbelow.trans hnil), hgoes, acknowledgements]
      omega
    · rwa [State.first_of_ne_nil hbelow hnil]
  refine ⟨?_, hfirst⟩
  cases hack : isAcknowledgement o with
  | false =>
    rw [hack] at hcount
    exact hI.service_of_eq hstep (op_pics ho hack) hcount.symm
  | true =>
    rw [hack, if_pos rfl] at hcount
    -- it ends the one that is in service
    obtain ⟨⟨i, hi⟩, hone⟩ := hI.service.resolve_left (by omega)
    refine .inl ⟨?_, by omega⟩
    cases o with
    | act e =>
      cases e with
      | notifyEndOfInterrupt index =>
        obtain rfl := Option.some.inj ho
        exact hlaw.end_of_one i _ hi index
      | writeByte | send => cases hack
    | _ => cases hack

theorem Acknowledged.step (hlaw : pics.Lawful) {a : Action Interrupt Exception}
    (hs : Safe Effect.guard s) (hI : Acknowledged pics s)
    (h : (core pics).step s a = some t) : Acknowledged pics t := by
  cases a with
  | run =>
    rcases Core.run_cases h with ⟨o, code, hcode, ho⟩ | ⟨f, k, below, hcode, hbelow, rfl⟩
    · exact hI.op hlaw hs hcode ho
    · have hcount : outstanding { s with flag := f, running := k, below := below }
          = outstanding s := by
        simp [outstanding, hcode, hbelow, acknowledgements]
      refine ⟨hI.service_of_eq h rfl hcount, ?_⟩
      rw [← State.first_of_push hbelow]
      exact hI.first
  | interrupt i =>
    obtain ⟨hflag, d, hd, rfl⟩ := Core.interrupt_cases h
    obtain ⟨hidle, hzero⟩ := hI.idle (hs.below_eq_nil hflag)
    obtain ⟨p, hp, rfl⟩ := Option.map_eq_some_iff.mp hd
    rw [hidle] at hp
    constructor
    · refine .inr ⟨⟨i.index, hp⟩, ?_⟩
      show acknowledgements i.handler + outstanding s = 1 ∨
        acknowledgements i.handler + outstanding s = 0 ∧ (.halt ∈ i.handler ∨ _)
      rw [hzero]
      exact (acknowledgements_interrupt i).imp_right fun hhalts => ⟨hhalts.1, .inl hhalts.2⟩
    · rw [State.first_of_push rfl]
      exact hI.first
  | fault x =>
    obtain rfl := Option.some.inj h
    have hcount : outstanding ((core pics).raise s x) = outstanding s := by
      show acknowledgements x.handler + outstanding s = outstanding s
      rw [acknowledgements_exception, Nat.zero_add]
    refine ⟨hI.service_of_eq h rfl hcount, ?_⟩
    rw [State.first_of_push rfl]
    exact hI.first

theorem exec_acknowledged (hlaw : pics.Lawful)
    (hcalm : Along (core pics).step Calm (boot pics items w) as)
    (h : exec (core pics).step (boot pics items w) as = some s) :
    Safe Effect.guard s ∧ Acknowledged pics s := by
  refine exec_invariant_along (I := fun s => Safe Effect.guard s ∧ Acknowledged pics s)
    (fun s a t hcalm hI h =>
      ⟨hI.1.step (core_disciplined pics) hcalm h, hI.2.step hlaw hI.1 h⟩) hcalm
    ⟨boot_safe items w, ?_⟩ h
  exact ⟨.inl ⟨rfl, acknowledgements_items items⟩, acknowledgements_items items⟩

/-- **Every interrupt is acknowledged**, but that of a handler which panics.  At all
times at most one interrupt is in service, and then its handler has yet to
acknowledge it or is going to halt; outside of handlers there is none, so with the
interrupt flag set both interrupts are let through.  Once a handler is going to
halt, interrupts stay off for good. -/
theorem interrupts_acknowledged (hlaw : pics.Lawful) (items : List Item) (w : Writer)
    (hcalm : Along (core pics).step Calm (boot pics items w) as)
    (h : exec (core pics).step (boot pics items w) as = some s) :
    (s.device.pics = pics.idle ∧ outstanding s = 0 ∨ InService pics s) ∧
      (s.below = [] → s.device.pics = pics.idle) ∧
      (s.flag = true → ∀ i, ∃ t, (core pics).step s (.interrupt i) = some t) ∧
      (HaltsAbove s.running s.below → ∀ bs t, Along (core pics).step Calm s bs →
        exec (core pics).step s bs = some t → t.flag = false) := by
  obtain ⟨hs, hI⟩ := exec_acknowledged hlaw hcalm h
  refine ⟨hI.service, fun hnil => (hI.idle hnil).1, ?_, ?_⟩
  · intro hflag i
    obtain ⟨p, hp⟩ := hlaw.deliver_idle i.index
    have haccept : (core pics).accept i s.device = some { s.device with pics := p } := by
      show (pics.deliver s.device.pics i.index).map _ = _
      rw [(hI.idle (hs.below_eq_nil hflag)).1, hp]
      rfl
    exact ⟨_, (if_pos hflag).trans (congrArg (Option.map _) haccept)⟩
  · intro hhalts bs t hcalm hrun
    exact exec_haltsAbove (core_disciplined pics) hcalm hs hhalts hrun

theorem interrupts_acknowledged_timer :
    ∃ s, exec (core sampleControllers).step (boot sampleControllers sampleItems default) sampleRun
        = some s ∧
      s.device.pics = none ∧
      ∀ i, ∃ t, (core sampleControllers).step s (.interrupt i) = some t := by
  obtain ⟨-, hidle, hthrough, -⟩ :=
    interrupts_acknowledged sampleControllers_lawful sampleItems default sampleRun_calm rfl
  exact ⟨_, rfl, hidle rfl, hthrough rfl⟩

end Interrupts
