import Coio.Semaphore.Steps

namespace Coio.AsyncSemaphore
open Transition Tally
set_option autoImplicit true

variable [DecidableEq ι] {max : Nat} {s t : State ι κ} {v : View ι}

variable [DecidableEq κ]

end Coio.AsyncSemaphore
