import Xv6.Kbd.Helpful
import Xv6.Kbd.HelpfulCase
import Xv6.Kbd.HelpfulSticky
import Xv6.Kbd.Anomaly
import Xv6.Kbd.AnnoyingCodes
import Xv6.Kbd.Layouts
import Xv6.Kbd.StickyCaps
import Xv6.Kbd.Modifiers
import Xv6.Console.AutocompleteMatch
import Xv6.Console.Bgcolor
import Xv6.Console.Echo
import Xv6.Console.Screen
import Xv6.Console.Display
import Xv6.Console.HelpfulBatch
import Xv6.Console.HelpfulToggles
import Xv6.Console.HelpfulRing
import Xv6.Console.HelpfulStrings
import Xv6.Console.HelpfulRecord
import Xv6.Console.HelpfulLine
import Xv6.Console.EnigmaRange
import Xv6.Console.Annoying
import Xv6.Fs.LogCrash
import Xv6.Fs.GroupIsolated
import Xv6.Fs.LogRoom
import Xv6.Fs.WriteAheadRule
import Xv6.Fs.MkfsConsistent
import Xv6.Fs.SharedWrite
import Xv6.Fs.BufferList
import Xv6.Proc.Pipe
import Xv6.Proc.Sleep
import Xv6.Proc.Sleeplock
import Xv6.Proc.SwitchCode
import Xv6.Proc.Lifecycle
import Xv6.Proc.Kill
import Xv6.Proc.AddressSpace
import Xv6.Proc.Descriptors
import Xv6.User.Malloc
import Xv6.User.MallocShape
import Xv6.User.ShellStrings
import Xv6.User.ShellStarts
import Xv6.Vm.PageTable
import Xv6.Vm.Dealloc
import Xv6.Vm.Alloc
import Xv6.Vm.Growproc
import Xv6.Vm.Copyout
import Xv6.Vm.Setupkvm
import Xv6.Vm.Copyuvm
import Xv6.Vm.Space
import Xv6.Proc.Exec
import Xv6.Proc.ExecArgs
import Xv6.User.Grep
import Xv6.Proc.SyscallArgs
import Xv6.Fs.IdeQueue
import Xv6.Fs.FileWrite
import Xv6.Fs.Namex
import Xv6.Fs.Directory
import Xv6.Fs.IcacheShared
import Xv6.Fs.IcacheOrphans
import Xv6.Console.Cursor
import Xv6.Console.Printint
import Xv6.User.Memmove
import Xv6.Mp
import Xv6.Vm.PageWords
