import ApueCourse.Transition.OrderedWait
import ApueCourse.Dining.Table
import ApueCourse.Transition.LockTable
import ApueCourse.Dining.Exclusion
import ApueCourse.Dining.Progress
import ApueCourse.Dining.Bypass
import ApueCourse.Control.EarlyExit
import ApueCourse.Find.FileTree
import ApueCourse.Find.Ftw
import ApueCourse.Find.Walk
import ApueCourse.Find.AbsolutePath
import ApueCourse.Find.Report
import ApueCourse.Find.NameSearch
import ApueCourse.Find.ContentSearch
import ApueCourse.Process.Table
import ApueCourse.Shell.Machine
import ApueCourse.Shell.Processes
import ApueCourse.Shell.Timeout
import ApueCourse.Shell.Kill
import ApueCourse.Shell.Collect
import ApueCourse.Shell.Loop
import ApueCourse.Memory.Links
import ApueCourse.Print.Queue
import ApueCourse.Memory.Strsep
import ApueCourse.Print.Workers
import ApueCourse.Shell.Arguments
import ApueCourse.Memory.Decimal
import ApueCourse.Print.Jobno
import ApueCourse.Db.Kernel
import ApueCourse.Db.Functions
import ApueCourse.Db.Deadlock
import ApueCourse.Program.Rely
import ApueCourse.Db.Layout
import ApueCourse.Db.Turns
import ApueCourse.Db.Local
import ApueCourse.Db.Rules
import ApueCourse.Db.Search
import ApueCourse.Db.Chain
import ApueCourse.Db.Update
import ApueCourse.Db.Store
import ApueCourse.Db.Calls
import ApueCourse.Db.Image
import ApueCourse.Db.Serial
import ApueCourse.Db.Sequential
import ApueCourse.Shell.CommandBounds
import ApueCourse.Shell.Environment
import ApueCourse.Program.Runs
import ApueCourse.Timewrite.Main
import ApueCourse.Timewrite.Passes
import ApueCourse.Timewrite.Copy
import ApueCourse.Find.Buffers
import ApueCourse.Find.Census
import ApueCourse.Find.Source
import ApueCourse.Db.Reading
import ApueCourse.Db.Abort
import ApueCourse.Db.Failing
import ApueCourse.Db.Scan
import ApueCourse.Db.Accepted
import ApueCourse.Db.Record
import ApueCourse.Find.Percentages
import ApueCourse.Memory.Cursor
import ApueCourse.Print.Attributes
import ApueCourse.Db.Extents
import ApueCourse.Db.Overflow
import ApueCourse.Print.Acknowledge
import ApueCourse.Print.Reply
import ApueCourse.Print.Verdict
import ApueCourse.Print.Readable
import ApueCourse.Print.Packets
import ApueCourse.Print.Divisions
import ApueCourse.Db.Open
import ApueCourse.Db.Usable
import ApueCourse.Memory.Strtok
import ApueCourse.Print.Keeping
import ApueCourse.Process.Semaphores
import ApueCourse.Semaph.Counting
import ApueCourse.Semaph.Release
import ApueCourse.Semaph.Sections
import ApueCourse.Opend.Passing
import ApueCourse.Opend.Session
import ApueCourse.Print.Delivery
import ApueCourse.Db.Scanned
import ApueCourse.Db.Accounts
import ApueCourse.Db.HighWater
