import Mathlib

/-!
# Event types

The types of the records in `lsb.events` (`lsb_puteventrec`, `getEventTypeAndKind` of
`lsb.log.c`), and which of them are about a job.
-/

namespace Volclava

inductive EventType where
  | jobNew | jobStart | jobStartAccept | jobStatus | jobSwitch | jobMove | queueCtrl | hostCtrl
  | mbdStart | mbdDie | mbdUnfulfill | jobFinish | loadIndex | chkpnt | mig | preExecStart
  | jobModify | jobModify2 | jobAttrSet | jobSignal | jobExecute | jobMsg | jobMsgAck
  | jobRequeue | jobClean | jobSigact | sbdJobStatus | jobForce | logSwitch
  deriving DecidableEq, Repr

/-- `EVENT_JOB_RELATED` -/
def EventType.jobRelated : EventType → Bool
  | .queueCtrl | .hostCtrl | .mbdStart | .mbdDie | .mbdUnfulfill | .loadIndex | .logSwitch => false
  | _ => true

end Volclava
