import Rsemu.Record.Log
import Rsemu.State.Canonical

/-!
# A recording has one encoding

Whatever `InputLog.decode` accepts is what `InputLog.encode` writes for the log it returns
(`encode_of_decode`): the events it reads go through `push`, so the log is one that the writer
does not refuse. The loop takes a byte a turn, so the turns it is given are enough
(`readEvents_enough`), and nothing is read that was not compared with what is left
(`performing_fromSource`).
-/

namespace Rsemu.Record

open Codec State

theorem lift_ok {α : Type} {p : Source α} {src rest : Bytes} {a : α}
    (h : lift p src = .ok (a, rest)) : p src = .ok (a, rest) :=
  mapError_ok (f := RecordError.state) h

theorem Performing.lift {α : Type} {p : Source α} (h : Performing p) : Performing (Record.lift p) :=
  h.mapError RecordError.state

namespace InputLog

variable {ptr : Nat} {log log' : InputLog} {src rest : Bytes}

def pushed (log : InputLog) (e : InputEvent) : InputLog := (log.push e).toOption.getD log

def pushAll (log : InputLog) (es : List InputEvent) : InputLog := es.foldl pushed log

theorem pushed_cases (log : InputLog) (e : InputEvent) :
    log.pushed e = log ∨ log.push e = .ok (log.pushed e) := by
  unfold pushed
  cases log.push e with
  | error err => exact .inl rfl
  | ok next => exact .inr rfl

theorem Ordered.pushAll (h : log.Ordered) (es : List InputEvent) : (log.pushAll es).Ordered := by
  induction es generalizing log with
  | nil => exact h
  | cons e es ih =>
    refine ih ?_
    rcases pushed_cases log e with hkept | hpush
    · rw [hkept]
      exact h
    · exact h.push hpush

theorem mem_pushAll {e : InputEvent} {es : List InputEvent} (he : e ∈ (log.pushAll es).events) :
    e ∈ log.events ∨ e ∈ es := by
  induction es generalizing log with
  | nil => exact .inl he
  | cons f es ih =>
    rcases ih he with hold | hnew
    · rcases pushed_cases log f with hkept | hpush
      · rw [hkept] at hold
        exact .inl hold
      · rw [(push_eq_ok.mp hpush).2.2, List.mem_append, List.mem_singleton] at hold
        exact hold.imp_right fun hef => List.mem_cons.mpr (.inl hef)
    · exact .inr (List.mem_cons_of_mem _ hnew)

theorem readEvent_ok {e : InputEvent} (h : readEvent ptr src = .ok (e, rest)) :
    writeU8 tagEvent ++ src = encodeEvent e ++ rest := by
  obtain ⟨at_, mid, hat, h⟩ := bind_ok h
  obtain ⟨kind, mid₁, hkind, h⟩ := bind_ok h
  obtain ⟨name, mid₂, hname, h⟩ := bind_ok h
  obtain ⟨payload, mid₃, hpayload, h⟩ := bind_ok h
  obtain ⟨rfl, rfl⟩ := pure_ok h
  rw [(readLe_ok (lift_ok hat)).1, readStr_ok (lift_ok hkind), readStr_ok (lift_ok hname),
    readBytes_ok (lift_ok hpayload)]
  simp only [encodeEvent, List.append_assoc]
  rfl

theorem pushEvent_ok {e : InputEvent} (h : pushEvent log e src = .ok (log', rest)) :
    log.push e = .ok log' ∧ rest = src := by
  unfold pushEvent at h
  split at h
  · cases h
  · cases hpush : log.push e with
    | error err =>
      rw [hpush] at h
      cases h
    | ok next =>
      rw [hpush] at h
      obtain ⟨rfl, rfl⟩ := pure_ok h
      exact ⟨rfl, rfl⟩

theorem readEvents_ok {fuel : Nat} (hord : log.Ordered)
    (h : readEvents ptr fuel log src = .ok (log', rest)) :
    ∃ es, log' = { log with events := log.events ++ es } ∧ log'.Ordered ∧
      src = eventBytes es ++ rest := by
  induction fuel generalizing log src with
  | zero => cases h
  | succ fuel ih =>
    obtain ⟨tag, mid, htag, h⟩ := bind_ok h
    have hsrc := readU8_ok (lift_ok htag)
    split at h
    · rename_i hend
      obtain ⟨rfl, rfl⟩ := pure_ok h
      refine ⟨[], by rw [List.append_nil], hord, ?_⟩
      rw [hsrc, hend]
      rfl
    · split at h
      · rename_i hevent
        obtain ⟨e, mid₁, he, hturn⟩ := bind_ok h
        obtain ⟨next, mid₂, hadd, hloop⟩ := bind_ok hturn
        obtain ⟨hpush, rfl⟩ := pushEvent_ok hadd
        obtain ⟨es, hlog', hord', hrest⟩ := ih (hord.push hpush) hloop
        obtain ⟨-, -, rfl⟩ := push_eq_ok.mp hpush
        refine ⟨e :: es, ?_, hord', ?_⟩
        · rw [hlog', List.append_assoc]
          rfl
        · rw [hsrc, hevent, readEvent_ok he, hrest, eventBytes, eventBytes, List.flatMap_cons]
          simp only [List.append_assoc]
      · cases h

theorem readHeader_ok {u : Unit} (h : readHeader src = .ok (u, rest)) :
    src = magic ++ (writeU32 logFormatVersion ++ rest) := by
  obtain ⟨found, mid, hfound, h⟩ := bind_ok h
  obtain ⟨_, mid₁, hmagic, h⟩ := bind_ok h
  obtain ⟨format, mid₂, hformat, hversion⟩ := bind_ok h
  obtain ⟨hm, rfl⟩ := refuse_ok hmagic
  obtain ⟨hv, rfl⟩ := refuse_ok hversion
  obtain rfl : found = magic := by simpa using hm
  obtain rfl : format = logFormatVersion := by simpa using hv
  rw [(take_ok (lift_ok hfound)).1, (readU32_ok (lift_ok hformat)).1]

theorem encode_of_decode {bytes : Bytes} (h : decode ptr bytes = .ok log) :
    log.encode = .ok bytes := by
  unfold decode at h
  cases hsource : fromSource ptr bytes with
  | error e =>
    rw [hsource] at h
    cases h
  | ok lr =>
    rw [hsource] at h
    obtain ⟨got, rest⟩ := lr
    obtain rfl : got = log := Except.ok.inj h
    obtain ⟨_, mid, hheader, h⟩ := bind_ok hsource
    obtain ⟨shape, mid₁, hshape, h⟩ := bind_ok h
    obtain ⟨fuel, mid₂, hfuel, h⟩ := bind_ok h
    obtain ⟨_, mid₃, hevents, h⟩ := bind_ok h
    obtain ⟨left, mid₄, hleft, h⟩ := bind_ok h
    obtain ⟨_, mid₅, htrailing, h⟩ := bind_ok h
    obtain ⟨rfl, rfl⟩ := pure_ok h
    obtain ⟨ht, rfl⟩ := refuse_ok htrailing
    obtain ⟨rfl, rfl⟩ := remaining_ok hleft
    obtain ⟨-, rfl⟩ := remaining_ok hfuel
    obtain ⟨es, rfl, hord, hes⟩ := readEvents_ok (ordered_empty shape) hevents
    have hnothing : rest = [] := by simpa using ht
    rw [hnothing, List.append_nil] at hes
    rw [readHeader_ok hheader, decodeFrom_ok (lift_ok hshape), hes]
    simp only [encode, encodeEvents_ok hord.short, bind, Except.bind]
    rfl

theorem length_readEvent {e : InputEvent} (h : readEvent ptr src = .ok (e, rest)) :
    rest.length ≤ src.length := by
  have hlen := congrArg List.length (readEvent_ok h)
  simp only [encodeEvent, List.length_append] at hlen
  omega

theorem readEvents_enough {fuel fuel' : Nat} (h : src.length < fuel) (h' : src.length < fuel') :
    readEvents ptr fuel log src = readEvents ptr fuel' log src := by
  induction fuel generalizing fuel' log src with
  | zero => cases h
  | succ fuel ih =>
    obtain ⟨n, rfl⟩ : ∃ n, fuel' = n + 1 := ⟨fuel' - 1, by omega⟩
    refine run_bind_congr fun tag mid htag => ?_
    have hmid := congrArg List.length (readU8_ok (lift_ok htag))
    rw [writeU8, List.length_append, length_leBytes] at hmid
    split
    · rfl
    · split
      · refine run_bind_congr fun e mid₁ he => run_bind_congr fun next mid₂ hpush => ?_
        have hshort := length_readEvent he
        obtain ⟨-, rfl⟩ := pushEvent_ok hpush
        exact ih (by omega) (by omega)
      · rfl

theorem performing_readEvents (fuel : Nat) (log : InputLog) :
    Performing (readEvents ptr fuel log) := by
  induction fuel generalizing log with
  | zero => exact performing_fail _
  | succ fuel ih =>
    refine (Performing.lift (performing_readLe _ _)).bind fun tag => ?_
    split
    · exact performing_pure _
    · split
      · have hevent : Performing (readEvent ptr) :=
          (Performing.lift (performing_readLe _ _)).bind fun _ =>
            (Performing.lift performing_readStr).bind fun _ =>
              (Performing.lift performing_readStr).bind fun _ =>
                (Performing.lift performing_readBytes).bind fun _ => performing_pure _
        refine hevent.bind fun e => Performing.bind ?_ fun log => ih log
        unfold pushEvent
        split
        · exact performing_fail _
        · split
          · exact performing_pure _
          · exact performing_fail _
      · exact performing_fail _

theorem performing_fromSource : Performing (fromSource ptr) := by
  have hheader : Performing readHeader :=
    (Performing.lift (performing_take _ _)).bind fun _ => (performing_refuse _ _).bind fun _ =>
      (Performing.lift (performing_readLe _ _)).bind fun _ => performing_refuse _ _
  exact hheader.bind fun _ => (Performing.lift performing_decodeFrom).bind fun _ =>
    performing_remaining.bind fun _ => (performing_readEvents _ _).bind fun _ =>
      performing_remaining.bind fun _ => (performing_refuse _ _).bind fun _ =>
        performing_pure _

end InputLog

end Rsemu.Record
