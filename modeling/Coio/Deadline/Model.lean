import Coio.Lib.Signed

namespace Coio.Deadline
open Signed
set_option autoImplicit true

/-- `std::clamp`. -/
def clamp (v lo hi : Int64) : Int64 := if v < lo then lo else if hi < v then hi else v

/-- The milliseconds that `epoll_context::do_one` lets `epoll_wait` block, for ever where they are
negative. Time points are ticks of a nanosecond. -/
def epoll_timeout (infinite : Bool) (earliest : Option Int64) (now : Int64) : Int32 :=
  if infinite then
    match earliest with
    | some earliest =>
      let msec := ceil 1000000 (earliest - now)
      (clamp msec 0 Int32.maxValue.toInt64).toInt32
    | none => -1
  else 0

structure Timespec where
  tv_sec : Int64
  tv_nsec : Int64
  deriving DecidableEq

/-- The time that `uring_context::do_one` lets `io_uring_wait_cqe_timeout` block, for ever where
there is none. -/
def uring_timeout (infinite : Bool) (earliest : Option Int64) (now : Int64) : Option Timespec :=
  if infinite then
    earliest.map fun earliest =>
      let usec := max (ceil 1000 (earliest - now)) 0
      { tv_sec := usec / 1000000, tv_nsec := usec % 1000000 * 1000 }
  else some { tv_sec := 0, tv_nsec := 0 }

/-- The deadline of the timer that `schedule_after` starts. -/
def schedule_after (now duration : Int64) : Int64 := now + ceil 1 duration

/-- The deadline of the timer that `timer::async_wait` starts. -/
def async_wait (now duration : Int64) : Int64 := schedule_after now (ceil 1 duration)

end Coio.Deadline
