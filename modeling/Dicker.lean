import Dicker.Shared.Sha256Standard
import Dicker.Server.FilterGate
import Dicker.Server.ChunkOffset
import Dicker.Server.Decompressor
import Dicker.Server.OsPath
import Dicker.Server.Rejection
import Dicker.Server.Lifecycle
import Dicker.Server.Backpressure
import Dicker.Server.BufferBound
import Dicker.Server.MemberNames
import Dicker.Server.StagingBound
import Dicker.Server.SessionLog
import Dicker.Server.Router
import Dicker.Server.TokenFile
import Dicker.Server.Replies
import Dicker.Client.Walk
import Dicker.Client.Dispatch
import Dicker.Client.Ring
import Dicker.Client.Socks5
import Dicker.Client.DiskProgress
import Dicker.System.Reupload
import Dicker.System.AcceptedPaths
import Dicker.System.AcceptMode
import Dicker.System.ServedUpload
