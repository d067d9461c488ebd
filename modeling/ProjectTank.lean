import ProjectTank.ArduinoText
import ProjectTank.AxisKeys
import ProjectTank.Base64
import ProjectTank.BinaryRounding
import ProjectTank.BoardOutputs
import ProjectTank.CameraControls
import ProjectTank.CameraThread
import ProjectTank.CannonTiming
import ProjectTank.CarFirmware
import ProjectTank.ClientThread
import ProjectTank.CommandAnswers
import ProjectTank.CommandOrder
import ProjectTank.CommandParser
import ProjectTank.CommandRoundTrip
import ProjectTank.ControlCommand
import ProjectTank.DeadBandApproach
import ProjectTank.DecimalText
import ProjectTank.DirectoryWalk
import ProjectTank.DuplicateFilter
import ProjectTank.ElementSource
import ProjectTank.FireControls
import ProjectTank.FixedWidth
import ProjectTank.FolderSource
import ProjectTank.FrameDelivery
import ProjectTank.FramedStream
import ProjectTank.HeldDrive
import ProjectTank.HeldKeys
import ProjectTank.HuffmanTables
import ProjectTank.InPlaceUnescape
import ProjectTank.InputExclusion
import ProjectTank.IntervalTimers
import ProjectTank.JavaScriptNumber
import ProjectTank.JoystickPointer
import ProjectTank.JoystickText
import ProjectTank.JsonText
import ProjectTank.KeyRelease
import ProjectTank.LaserRelease
import ProjectTank.LastWriter
import ProjectTank.LetterServer
import ProjectTank.LineNoise
import ProjectTank.MemoryBlock
import ProjectTank.MjpegProxy
import ProjectTank.ModularClock
import ProjectTank.MotorDrive
import ProjectTank.MousePosition
import ProjectTank.NaiveMatch
import ProjectTank.ParserReference
import ProjectTank.PictureDelivery
import ProjectTank.PictureExchange
import ProjectTank.PictureFolder
import ProjectTank.PictureRing
import ProjectTank.PlaneClamp
import ProjectTank.PluginDescriptor
import ProjectTank.Polling
import ProjectTank.ProgramText
import ProjectTank.PythonDecoding
import ProjectTank.PythonFloat
import ProjectTank.PythonText
import ProjectTank.RawFrames
import ProjectTank.RecentFirmware
import ProjectTank.RecentItems
import ProjectTank.ReportPace
import ProjectTank.RequestCredentials
import ProjectTank.RequestReader
import ProjectTank.SensorTimeout
import ProjectTank.SeparatedText
import ProjectTank.SerialLines
import ProjectTank.SerialReader
import ProjectTank.ServedFile
import ProjectTank.ServoControl
import ProjectTank.ServoConvergence
import ProjectTank.ServoOverflow
import ProjectTank.ShortestDecimal
import ProjectTank.ShotVisibility
import ProjectTank.Shutdown
import ProjectTank.SilentSender
import ProjectTank.StaticFiles
import ProjectTank.StickThrottle
import ProjectTank.StreamDecoding
import ProjectTank.StreamRelay
import ProjectTank.StreamSampling
import ProjectTank.StreamingOutput
import ProjectTank.TankFirmware
import ProjectTank.TankServer
import ProjectTank.TankSystem
import ProjectTank.TelemetryLink
import ProjectTank.TiltControl
import ProjectTank.TornLines
import ProjectTank.Transition
import ProjectTank.TurretServer
import ProjectTank.TurretTimers
import ProjectTank.TwoSticks
import ProjectTank.UdpPictures
import ProjectTank.WriterPool
import ProjectTank.ZmqServer
